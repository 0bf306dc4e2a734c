/-
The history of a post and its comments over a run of edits.

Every call that returns a revision archives the post or comment as it found it.
The archived revisions are numbered from one without gaps, in the order of the
calls, and those of a post have increasing times.  What an archive cannot carry,
and clocks that run back, are held to a condition.
-/

import Pttbbs.PostSvc.History
import Pttbbs.PostSvc.EditTokens

namespace Pttbbs.PostSvc

open Pttbbs.Lib

/-! ### What a run should have archived -/

def Op.edits (id : UInt64) : Op → Prop
  | .updatePost _ edit => edit.postID = id
  | .updatePostTitle _ postID _ _ _ => postID = id
  | .deletePost _ postID _ _ _ => postID = id
  | .undeletePost _ postID => postID = id
  | .updateComment _ postID _ _ _ _ => postID = id
  | .deleteComment _ postID _ _ _ _ => postID = id
  | .undeleteComment postID _ => postID = id
  | _ => False

instance (id : UInt64) (op : Op) : Decidable (op.edits id) := by
  unfold Op.edits
  split <;> infer_instance

def Op.editsPost : Op → Bool
  | .updatePost _ _ => true
  | .updatePostTitle _ _ _ _ _ => true
  | .deletePost _ _ _ _ _ => true
  | _ => false

def Op.floor? : Op → Option UInt32
  | .updateComment _ _ sequence _ _ _ => some sequence
  | .deleteComment _ _ sequence _ _ _ => some sequence
  | _ => none

def returnedRevision : Except EngineError Reply → UInt32
  | .ok (.edited revision _) => revision
  | .ok (.revision revision) => revision
  | _ => 0

namespace Engine

def postBefore (cfg : Config) (id : UInt64) (engine : Engine) (op : Op) : Option Post :=
  if op.editsPost && returnedRevision (engine.step cfg op).2 ≠ 0 then
    (engine.getPost cfg id).2.toOption
  else none

def commentBefore (cfg : Config) (id : UInt64) (engine : Engine) (op : Op) (floor : UInt32) :
    Option Comment :=
  if op.floor? = some floor && returnedRevision (engine.step cfg op).2 ≠ 0 then
    engine.getComment id floor
  else none

def postLog (cfg : Config) (id : UInt64) : Engine → List Op → List Post
  | _, [] => []
  | engine, op :: rest =>
      (engine.postBefore cfg id op).toList ++ postLog cfg id (engine.after cfg op) rest

def commentLog (cfg : Config) (id : UInt64) (floor : UInt32) : Engine → List Op → List Comment
  | _, [] => []
  | engine, op :: rest =>
      (engine.commentBefore cfg id op floor).toList ++
        commentLog cfg id floor (engine.after cfg op) rest

end Engine

structure CarriesPost (post : Post) (revision : PostRevision) : Prop where
  postID : revision.postID = post.id
  community : revision.community = post.community
  postFile : revision.postFile = post.postFile
  title : revision.title = post.title
  creatorName : revision.creatorName = post.creatorName
  creatorID : revision.creatorID = post.creatorID
  createdAt : revision.createdAt = post.createdAt
  content : revision.content = post.content

structure CarriesComment (comment : Comment) (revision : CommentRevision) : Prop where
  postID : revision.postID = comment.postID
  sequence : revision.sequence = comment.sequence
  creatorName : revision.creatorName = comment.creatorName
  creatorID : revision.creatorID = comment.creatorID
  createdAt : revision.createdAt = comment.createdAt
  ip : revision.ip = comment.ip
  legacyType : revision.legacyType = comment.legacyType
  content : revision.content = comment.content

structure HistoryComplete (id : UInt64) (engine : Engine) (posts : List Post)
    (comments : UInt32 → List Comment) : Prop where
  posts : ∃ revisions : List PostRevision,
    (∀ number : UInt32, (engine.getPostHistory id number).isSome ↔
      1 ≤ number.toNat ∧ number.toNat ≤ posts.length) ∧
    (∀ (index : Nat) (number : UInt32), number.toNat = index + 1 →
      engine.getPostHistory id number = revisions[index]?) ∧
    List.Forall₂ CarriesPost posts revisions ∧
    revisions.Pairwise (fun earlier later => earlier.editedAt < later.editedAt)
  comments : ∀ floor, ∃ revisions : List CommentRevision,
    (∀ number : UInt32, (engine.getCommentHistory id floor number).isSome ↔
      1 ≤ number.toNat ∧ number.toNat ≤ (comments floor).length) ∧
    (∀ (index : Nat) (number : UInt32), number.toNat = index + 1 →
      engine.getCommentHistory id floor number = revisions[index]?) ∧
    List.Forall₂ CarriesComment (comments floor) revisions

/-! ### What one operation archives -/

namespace Engine

def ShownFrom (id : UInt64) (before after : Engine) : Prop :=
  ∀ row, after.metaDB.posts.get? id = some row →
    ∃ old, before.metaDB.posts.get? id = some old ∧ old.shownModified ≤ row.shownModified

theorem ShownFrom.of_metaDB {id : UInt64} {before after : Engine}
    (same : after.metaDB = before.metaDB) : ShownFrom id before after := by
  intro row found
  rw [same] at found
  exact ⟨row, found, le_refl _⟩

/-- A post is archived as it was read, at a time past the one it shows. -/
structure ArchivesPost (id : UInt64) (before after : Engine) (post : Post) : Prop where
  postID : post.id = id
  archive : ∃ time editor action reason,
    after.historyDB = before.historyDB.set
      (encodePostHistoryKey id (before.nextPostRevision id))
      (encodeRFC822PostRevision
        (revisionOfPost post (before.nextPostRevision id) time editor action reason)) ∧
    (∃ old, before.metaDB.posts.get? id = some old ∧ old.shownModified < time) ∧
    ∀ row, after.metaDB.posts.get? id = some row → row.shownModified = time

structure ArchivesComment (id : UInt64) (floor : UInt32) (before after : Engine)
    (comment : Comment) : Prop where
  postID : comment.postID = id
  sequence : comment.sequence = floor
  archive : ∃ time editor action reason,
    after.historyDB = before.historyDB.set
      (encodeCommentHistoryKey id floor (before.nextCommentRevision id floor))
      (encodeRFC822CommentRevision
        (revisionOfComment comment (before.nextCommentRevision id floor) time editor action
          reason))
  shown : ShownFrom id before after

def PostRule (id : UInt64) (engine : Engine) : Prop :=
  ∀ row ∈ engine.metaDB.posts.get? id,
    0 ≤ row.shownModified ∧ row.shownModified ≠ Int64.maxValue ∧
      LineFree row.title ∧ LineFree row.community ∧ LineFree row.postFile ∧
      LineFree row.creatorName ∧
      engine.historyDB.get? (encodePostHistoryKey id 0xff000000) = none

def CommentRule (id : UInt64) (floor : UInt32) (engine : Engine) : Prop :=
  ∀ comment ∈ engine.getComment id floor,
    comment.legacyType = 0 ∧ LineFree comment.creatorName ∧ LineFree comment.ip ∧
      engine.historyDB.get? (encodeCommentHistoryKey id floor 0xff000000) = none

def ClockRule (id : UInt64) (now : Int64) (engine : Engine) : Prop :=
  ∀ row ∈ engine.metaDB.posts.get? id,
    0 ≤ row.shownModified ∧ row.shownModified ≤ now

def KeepsHistory (cfg : Config) (id : UInt64) (engine : Engine) : Op → Prop
  | .updatePost _ _ => engine.PostRule id
  | .updatePostTitle _ _ _ _ _ => engine.PostRule id
  | .deletePost now _ deleterName deleterID reason =>
      engine.PostRule id ∧
        ∀ post ∈ (engine.getPost cfg id).2.toOption,
          let deleter := editorOf deleterName deleterID post.creatorName post.creatorID
          bindable (Deletion.delete post.creatorName post.creatorID deleter.1 deleter.2 reason
            now).modPersonID = true
  | .undeletePost now _ => engine.ClockRule id now
  | .updateComment now _ sequence _ _ _ => engine.ClockRule id now ∧ engine.CommentRule id sequence
  | .deleteComment _ _ sequence _ _ _ => engine.CommentRule id sequence
  | _ => True

instance (id : UInt64) (engine : Engine) : Decidable (engine.PostRule id) :=
  inferInstanceAs (Decidable (∀ row ∈ engine.metaDB.posts.get? id, _))

instance (id : UInt64) (floor : UInt32) (engine : Engine) :
    Decidable (engine.CommentRule id floor) :=
  inferInstanceAs (Decidable (∀ comment ∈ engine.getComment id floor, _))

instance (id : UInt64) (now : Int64) (engine : Engine) : Decidable (engine.ClockRule id now) :=
  inferInstanceAs (Decidable (∀ row ∈ engine.metaDB.posts.get? id, _))

instance (cfg : Config) (id : UInt64) (engine : Engine) (op : Op) :
    Decidable (engine.KeepsHistory cfg id op) := by
  unfold KeepsHistory
  split <;> infer_instance

section Posts

variable {cfg : Config} {engine reader after : Engine} {id : UInt64} {post : Post}

theorem nextPostRevision_congr (same : reader.historyDB = engine.historyDB) :
    reader.nextPostRevision id = engine.nextPostRevision id := by
  unfold nextPostRevision
  rw [same]

theorem archivesPost_of_read (read : engine.getPost cfg id = (reader, .ok post))
    (rule : engine.PostRule id) (now : Int64) (editor : Bytes × PersonID) (action reason : Bytes)
    (history : after.historyDB = (reader.setPostRevision (revisionOfPost post
      (reader.nextPostRevision id) (editTime now post.modified) editor action reason)).historyDB)
    (row : ∀ row, after.metaDB.posts.get? id = some row →
      row.modified = editTime now post.modified) : ArchivesPost id engine after post := by
  have frame := getPost_frame cfg engine id
  rw [read] at frame
  have sameID := getPost_id read
  obtain ⟨old, stored, _found⟩ := getPost_ok read
  have shown : post.modified = old.shownModified := getPost_modified read stored
  obtain ⟨notBefore, notMax, _lineFree⟩ := rule old stored
  have later : old.shownModified < editTime now post.modified := by
    rw [shown]
    exact editTime_gt notMax
  refine ⟨sameID, editTime now post.modified, editor, action, reason, ?_, ⟨old, stored, later⟩, ?_⟩
  · rw [history, nextPostRevision_congr frame.historyDB]
    unfold setPostRevision revisionOfPost
    dsimp only
    rw [frame.historyDB, sameID]
  · intro found isRow
    unfold PostRow.shownModified
    rw [row found isRow, if_neg (ne_of_gt (lt_of_le_of_lt notBefore later))]

theorem metaDB_setRowTitle {engine : Engine} {edited : Post} (same : edited.id = id) {row : PostRow}
    (found : (engine.setRowTitle edited).metaDB.posts.get? id = some row) :
    row.modified = edited.modified := by
  unfold setRowTitle MetaDB.updatePost at found
  rw [same, OrderedMap.get?_modify_self] at found
  obtain ⟨old, _stored, rfl⟩ := Option.map_eq_some_iff.mp found
  rfl

theorem metaDB_setRowDeletion {engine : Engine} {edited : Post} (same : edited.id = id)
    (bound : bindable edited.deletion.modPersonID = true) {row : PostRow}
    (found : (engine.setRowDeletion edited).metaDB.posts.get? id = some row) :
    row.modified = edited.modified := by
  unfold setRowDeletion MetaDB.updatePost at found
  rw [if_pos bound, same, OrderedMap.get?_modify_self] at found
  obtain ⟨old, _stored, rfl⟩ := Option.map_eq_some_iff.mp found
  rfl

theorem historyDB_setRowDeletion {engine : Engine} {post : Post} :
    ((engine.setPostRecord post).setRowDeletion post).historyDB = engine.historyDB := by
  unfold setRowDeletion
  split <;> rfl

def PostOutcome (cfg : Config) (id : UInt64) (engine : Engine) (op : Op) : Prop :=
  (engine.postBefore cfg id op = none ∧ (engine.after cfg op).historyDB = engine.historyDB ∧
      ShownFrom id engine (engine.after cfg op)) ∨
    ∃ post, engine.postBefore cfg id op = some post ∧
      ArchivesPost id engine (engine.after cfg op) post

theorem postBefore_of_zero {op : Op} (zero : returnedRevision (engine.step cfg op).2 = 0) :
    engine.postBefore cfg id op = none := by
  unfold postBefore
  rw [zero]
  simp

theorem postBefore_of_ne_zero {op : Op} (edits : op.editsPost = true)
    (returned : returnedRevision (engine.step cfg op).2 ≠ 0)
    (read : engine.getPost cfg id = (reader, .ok post)) :
    engine.postBefore cfg id op = some post := by
  unfold postBefore
  rw [edits, read, if_pos (by simpa using returned)]
  rfl

theorem postOutcome_of_edits {α : Type} {op : Op} {now : Int64} {make : Post → Post}
    {write : Engine → Post → Engine} {revisionOf : α → UInt32} {outcome : Outcome α}
    {wrap : α → Reply}
    (edits : EditsPost cfg engine now id make write revisionOf outcome)
    (stepped : engine.step cfg op = outcome.reply wrap) (isEdit : op.editsPost = true)
    (returned : ∀ value, returnedRevision (.ok (wrap value)) = revisionOf value)
    (rule : engine.PostRule id)
    (made : ∀ post, (make post).id = post.id ∧ (make post).modified = editTime now post.modified)
    (history : ∀ (before : Engine) (post : Post), (write before post).historyDB = before.historyDB)
    (row : ∀ post, (engine.getPost cfg id).2 = .ok post → ∀ (before : Engine) (row : PostRow),
      (make post).id = id → (write before (make post)).metaDB.posts.get? id = some row →
        row.modified = (make post).modified) :
    PostOutcome cfg id engine op := by
  have after : engine.after cfg op = outcome.1 := congrArg Prod.fst stepped
  unfold PostOutcome
  rw [after]
  cases edits with
  | leaves result nothing =>
      have frame := getPost_frame cfg engine id
      refine Or.inl ⟨postBefore_of_zero ?_, frame.historyDB, .of_metaDB frame.metaDB⟩
      rw [stepped]
      cases result with
      | error failure => rfl
      | ok value => exact (returned value).trans (nothing value rfl)
  | archives reader post editor action reason value read isRevision =>
      have sameID := (made post).1.trans (getPost_id read)
      have rendered := fun before => renderAndSave_frame cfg before (make post)
      refine Or.inr ⟨post, postBefore_of_ne_zero isEdit ?_ read, ?_⟩
      · rw [stepped]
        change returnedRevision (.ok (wrap value)) ≠ 0
        rw [returned, isRevision]
        exact nextPostRevision_ne_zero reader id
      · refine archivesPost_of_read read rule now editor action reason ?_ ?_
        · rw [(rendered _).historyDB, history]
        · intro found isRow
          rw [(rendered _).metaDB] at isRow
          rw [row post (by rw [read]) _ found sameID isRow, (made post).2]

end Posts

/-! #### Operations that archive no post -/

section Comments

variable {cfg : Config} {engine reader after : Engine} {id : UInt64} {floor : UInt32}

theorem ShownFrom.trans {first second third : Engine} (left : ShownFrom id first second)
    (right : ShownFrom id second third) : ShownFrom id first third := by
  intro row found
  obtain ⟨middle, middleFound, later⟩ := right row found
  obtain ⟨old, stored, earlier⟩ := left middle middleFound
  exact ⟨old, stored, le_trans earlier later⟩

theorem ShownFrom.set_time {now : Int64} (rule : engine.ClockRule id now)
    (change : PostRow → PostRow) (time : ∀ row, (change row).modified = now)
    (created : ∀ row, (change row).createdAt = row.createdAt)
    (rows : after.metaDB.posts.get? id = (engine.metaDB.posts.get? id).map change) :
    ShownFrom id engine after := by
  intro row found
  rw [rows] at found
  obtain ⟨old, stored, rfl⟩ := Option.map_eq_some_iff.mp found
  obtain ⟨notBefore, notLate⟩ := rule old stored
  refine ⟨old, stored, ?_⟩
  have shown : (change old).shownModified = if now = 0 then old.createdAt else now := by
    unfold PostRow.shownModified
    rw [time, created]
  rw [shown]
  split
  · rename_i zero
    -- The clock reads zero, so the post shows zero and never had another time.
    have zeroShown : old.shownModified = 0 := le_antisymm (zero ▸ notLate) notBefore
    unfold PostRow.shownModified at zeroShown ⊢
    split
    · exact le_refl _
    · rename_i set
      rw [if_neg set] at zeroShown
      exact absurd zeroShown set
  · exact notLate

theorem shownFrom_undeletePost (cfg : Config) {engine : Engine} {id : UInt64} (now : Int64)
    (rule : engine.ClockRule id now) :
    (engine.undeletePost cfg now id).1.historyDB = engine.historyDB ∧
      ShownFrom id engine (engine.undeletePost cfg now id).1 := by
  unfold undeletePost
  have frame := getPost_frame cfg engine id
  cases read : engine.getPost cfg id with
  | mk reader result =>
      rw [read] at frame
      cases result with
      | error failure => exact ⟨frame.historyDB, .of_metaDB frame.metaDB⟩
      | ok post =>
          dsimp only
          split
          · generalize editing : ({ post with
              deletion := Deletion.restore, modified := now } : Post) = edited
            have sameID := getPost_id read
            have editedID : edited.id = id := by
              rw [← editing]
              exact sameID
            have rendered := renderAndSave_frame cfg
              ((reader.setPostRecord edited).setRowDeletion edited) edited
            have restored : (reader.setPostRecord edited).setRowDeletion edited =
                { reader.setPostRecord edited with
                  metaDB := reader.metaDB.updatePost edited.id (fun row =>
                    { row with deletion := edited.deletion, modified := edited.modified }) } := by
              unfold setRowDeletion
              rw [← editing]
              rfl
            constructor
            · rw [rendered.historyDB, restored]
              exact frame.historyDB
            · refine .set_time rule
                (fun row => { row with deletion := edited.deletion, modified := edited.modified })
                (fun row => by rw [← editing]) (fun row => rfl) ?_
              rw [rendered.metaDB, restored, ← frame.metaDB, editedID]
              exact OrderedMap.get?_modify_self _ _ _
          · exact ⟨frame.historyDB, .of_metaDB frame.metaDB⟩

theorem shownFrom_touchPost (cfg : Config) {engine : Engine} {id : UInt64} (now : Int64)
    (rule : engine.ClockRule id now) :
    (engine.touchPost cfg now id).historyDB = engine.historyDB ∧
      ShownFrom id engine (engine.touchPost cfg now id) := by
  unfold touchPost
  have frame := getPost_frame cfg engine id
  cases read : engine.getPost cfg id with
  | mk reader result =>
      rw [read] at frame
      cases result with
      | error failure => exact ⟨frame.historyDB, .of_metaDB frame.metaDB⟩
      | ok post =>
          dsimp only
          have sameID := getPost_id read
          have rendered := fun before => renderAndSave_frame cfg before
            { post with modified := now }
          refine ⟨(rendered _).historyDB.trans frame.historyDB, ?_⟩
          refine .set_time rule (fun row => { row with modified := now }) (fun row => rfl)
            (fun row => rfl) ?_
          rw [(rendered _).metaDB, ← frame.metaDB, sameID]
          exact OrderedMap.get?_modify_self _ _ _

def CommentOutcome (cfg : Config) (id : UInt64) (engine : Engine) (op : Op)
    (floor : UInt32) : Prop :=
  (engine.commentBefore cfg id op floor = none ∧
      (engine.after cfg op).historyDB = engine.historyDB ∧
      ShownFrom id engine (engine.after cfg op)) ∨
    ∃ comment, engine.commentBefore cfg id op floor = some comment ∧
      ArchivesComment id floor engine (engine.after cfg op) comment

theorem commentBefore_of_zero {op : Op} (zero : returnedRevision (engine.step cfg op).2 = 0)
    (floor : UInt32) : engine.commentBefore cfg id op floor = none := by
  unfold commentBefore
  rw [zero]
  simp

theorem commentBefore_of_ne_zero {op : Op} (edits : op.floor? = some floor)
    (returned : returnedRevision (engine.step cfg op).2 ≠ 0) :
    engine.commentBefore cfg id op floor = engine.getComment id floor := by
  unfold commentBefore
  rw [edits, if_pos (by simpa using returned)]

theorem commentOutcome_of_edits {op : Op} {now : Int64} {make : Comment → Comment}
    {ends : Engine → Engine} {outcome : Outcome UInt32}
    (edits : EditsComment engine now id floor make ends outcome)
    (stepped : engine.step cfg op = outcome.reply .revision) (isEdit : op.floor? = some floor)
    (shown : ∀ before : Engine, before.metaDB = engine.metaDB →
      (ends before).historyDB = before.historyDB ∧ ShownFrom id before (ends before)) :
    CommentOutcome cfg id engine op floor := by
  have after : engine.after cfg op = outcome.1 := congrArg Prod.fst stepped
  unfold CommentOutcome
  rw [after]
  cases edits with
  | leaves result nothing =>
      refine Or.inl ⟨commentBefore_of_zero ?_ floor, rfl, .of_metaDB rfl⟩
      rw [stepped]
      cases result with
      | error failure => rfl
      | ok revision => exact nothing revision rfl
  | archives comment editor action reason found =>
      obtain ⟨here, sequence⟩ := getComment_ids found
      dsimp only
      generalize writing : (engine.setCommentRevision _).setCommentRecord (make comment) = written
      have rows : written.metaDB = engine.metaDB := by
        rw [← writing]
        rfl
      obtain ⟨history, kept⟩ := shown written rows
      refine Or.inr ⟨comment, ?_, here, sequence, ⟨now, editor, action, reason, ?_⟩, ?_⟩
      · rw [commentBefore_of_ne_zero isEdit, found]
        rw [stepped]
        exact nextCommentRevision_ne_zero engine id floor
      · rw [history, ← writing]
        unfold setCommentRecord setCommentRevision revisionOfComment
        dsimp only
        rw [here, sequence]
      · exact .trans (.of_metaDB rows) kept

theorem undeleteComment_quiet (cfg : Config) (engine : Engine) (id : UInt64) (floor : UInt32) :
    (engine.undeleteComment cfg id floor).1.historyDB = engine.historyDB ∧
      (engine.undeleteComment cfg id floor).1.metaDB = engine.metaDB := by
  unfold undeleteComment
  split
  · exact ⟨rfl, rfl⟩
  · split
    · rename_i comment _read _gone
      have frame := rerenderPost_frame cfg
        (engine.setCommentRecord { comment with deletion := Deletion.restore }) id
      exact ⟨frame.historyDB, frame.metaDB⟩
    · exact ⟨rfl, rfl⟩

end Comments

/-- What an operation does to the history: nothing, or it archives the post, or
one comment. -/
inductive HistoryStep (cfg : Config) (id : UInt64) (engine : Engine) (op : Op) : Prop where
  | quiet (noPost : engine.postBefore cfg id op = none)
      (noComment : ∀ floor, engine.commentBefore cfg id op floor = none)
      (history : (engine.after cfg op).historyDB = engine.historyDB)
      (shown : ShownFrom id engine (engine.after cfg op))
  | post (post : Post) (isPost : engine.postBefore cfg id op = some post)
      (noComment : ∀ floor, engine.commentBefore cfg id op floor = none)
      (read : ∃ reader, engine.getPost cfg id = (reader, .ok post))
      (rule : engine.PostRule id) (archives : ArchivesPost id engine (engine.after cfg op) post)
  | comment (floor : UInt32) (comment : Comment) (noPost : engine.postBefore cfg id op = none)
      (isComment : ∀ other, engine.commentBefore cfg id op other =
        if other = floor then some comment else none)
      (found : engine.getComment id floor = some comment) (rule : engine.CommentRule id floor)
      (archives : ArchivesComment id floor engine (engine.after cfg op) comment)

theorem historyStep_of_keeps (cfg : Config) {engine : Engine} {id : UInt64} {op : Op}
    (edits : op.edits id) (keeps : engine.KeepsHistory cfg id op) :
    HistoryStep cfg id engine op := by
  have notPost : op.editsPost = false → engine.postBefore cfg id op = none := by
    intro other
    unfold postBefore
    rw [other]
    rfl
  have notComment : op.floor? = none → ∀ floor, engine.commentBefore cfg id op floor = none := by
    intro other floor
    unfold commentBefore
    rw [other]
    rfl
  have ofPost : op.floor? = none → engine.PostRule id → PostOutcome cfg id engine op →
      HistoryStep cfg id engine op := by
    intro other rule outcome
    rcases outcome with ⟨nothing, history, shown⟩ | ⟨post, archived, archives⟩
    · exact .quiet nothing (notComment other) history shown
    · refine .post post archived (notComment other) ?_ rule archives
      unfold postBefore at archived
      split at archived
      · cases read : engine.getPost cfg id with
        | mk reader result =>
            rw [read] at archived
            cases result with
            | error failure => cases archived
            | ok found =>
                cases archived
                exact ⟨reader, rfl⟩
      · cases archived
  have ofComment : ∀ floor, op.floor? = some floor → op.editsPost = false →
      engine.CommentRule id floor → CommentOutcome cfg id engine op floor →
        HistoryStep cfg id engine op := by
    intro floor here other rule outcome
    have elsewhere : ∀ more, more ≠ floor → engine.commentBefore cfg id op more = none := by
      intro more different
      unfold commentBefore
      rw [here, if_neg]
      simp [Ne.symm different]
    rcases outcome with ⟨nothing, history, shown⟩ | ⟨comment, archived, archives⟩
    · refine .quiet (notPost other) (fun more => ?_) history shown
      by_cases same : more = floor
      · rw [same]
        exact nothing
      · exact elsewhere more same
    · have found : engine.getComment id floor = some comment := by
        unfold commentBefore at archived
        split at archived
        · exact archived
        · cases archived
      refine .comment floor comment (notPost other) (fun more => ?_) found rule archives
      by_cases same : more = floor
      · rw [if_pos same, same]
        exact archived
      · rw [if_neg same]
        exact elsewhere more same
  cases op with
  | updatePost now edit =>
      cases edits
      exact ofPost rfl keeps (postOutcome_of_edits (editsPost_updatePost cfg engine now edit) rfl
        rfl (fun _ => rfl) keeps (fun _ => ⟨rfl, rfl⟩) (fun _ _ => rfl)
        (fun _ _ _ _ same found => metaDB_setRowTitle same found))
  | updatePostTitle now postID newTitle editorName editorID =>
      cases edits
      exact ofPost rfl keeps (postOutcome_of_edits
        (editsPost_updatePostTitle cfg engine now id newTitle editorName editorID) rfl rfl
        (fun _ => rfl) keeps (fun _ => ⟨rfl, rfl⟩) (fun _ _ => rfl)
        (fun _ _ _ _ same found => metaDB_setRowTitle same found))
  | deletePost now postID deleterName deleterID reason =>
      cases edits
      refine ofPost rfl keeps.1 (postOutcome_of_edits
        (editsPost_deletePost cfg engine now id deleterName deleterID reason) rfl rfl
        (fun _ => rfl) keeps.1 (fun _ => ⟨rfl, rfl⟩) (fun _ _ => historyDB_setRowDeletion) ?_)
      intro post read before row same found
      have bound := keeps.2 post (by rw [read]; rfl)
      dsimp only at bound
      rw [Deletion.delete_modPersonID _ _ _ _ _ now (editTime now post.modified)] at bound
      exact metaDB_setRowDeletion same bound found
  | undeletePost now postID =>
      cases edits
      obtain ⟨history, shown⟩ := shownFrom_undeletePost cfg now keeps
      exact .quiet (notPost rfl) (notComment rfl) history shown
  | updateComment now postID sequence newContent editorName editorID =>
      cases edits
      refine ofComment sequence rfl rfl keeps.2 (commentOutcome_of_edits
        (editsComment_updateComment cfg engine now id sequence newContent editorName editorID)
        rfl rfl ?_)
      intro before rows
      refine shownFrom_touchPost cfg now ?_
      unfold ClockRule
      rw [rows]
      exact keeps.1
  | deleteComment now postID sequence deleterName deleterID reason =>
      cases edits
      refine ofComment sequence rfl rfl keeps (commentOutcome_of_edits
        (editsComment_deleteComment cfg engine now id sequence deleterName deleterID reason)
        rfl rfl ?_)
      intro before _rows
      have frame := rerenderPost_frame cfg before id
      exact ⟨frame.historyDB, .of_metaDB frame.metaDB⟩
  | undeleteComment postID sequence =>
      cases edits
      obtain ⟨history, rows⟩ := undeleteComment_quiet cfg engine id sequence
      exact .quiet (notPost rfl) (notComment rfl) history (.of_metaDB rows)
  | _ => exact edits.elim

/-! ### Steps and runs -/

structure HistoryLogged (id : UInt64) (engine : Engine) (posts : List Post)
    (comments : UInt32 → List Comment) : Prop where
  posts : ∃ revisions : List PostRevision,
    Logged engine.historyDB (encodePostHistoryPrefix id)
      (revisions.map encodeRFC822PostRevision) ∧
    List.Forall₂ (fun post revision => CarriesPost post (storedPostRevision revision)) posts
      revisions ∧
    revisions.Pairwise (fun earlier later => earlier.editedAt < later.editedAt) ∧
    ∀ revision ∈ revisions, ∀ row, engine.metaDB.posts.get? id = some row →
      revision.editedAt ≤ row.shownModified
  comments : ∀ floor, ∃ revisions : List CommentRevision,
    Logged engine.historyDB (encodeCommentHistoryPrefix id floor)
      (revisions.map encodeRFC822CommentRevision) ∧
    List.Forall₂ (fun comment revision => CarriesComment comment (storedCommentRevision revision))
      (comments floor) revisions

theorem logged_small {db : Pebble} {stem : Bytes} {values : List Bytes}
    (logged : Logged db stem values) (free : db.get? (numberedKey stem 0xff000000) = none) :
    values.length < 0xff000000 := by
  by_contra large
  have number : (0xff000000 : UInt32).toNat = 0xff000000 := rfl
  have present := (logged.numbered.get?_isSome_iff 0xff000000).mpr (by omega)
  rw [free] at present
  cases present

theorem getPost_names {cfg : Config} {engine reader : Engine} {id : UInt64} {post : Post}
    (read : engine.getPost cfg id = (reader, .ok post)) {row : PostRow}
    (stored : engine.metaDB.posts.get? id = some row) :
    post.title = row.title ∧ post.community = row.community ∧ post.postFile = row.postFile ∧
      post.creatorName = row.creatorName := by
  obtain ⟨found, isRow, rest⟩ := getPost_ok read
  rw [stored] at isRow
  cases isRow
  rcases rest with ⟨value, _record, _same, rfl⟩ | ⟨_missing, rfl, _same⟩
  · rw [withRecord_eq]
    exact ⟨rfl, rfl, rfl, rfl⟩
  · exact ⟨rfl, rfl, rfl, rfl⟩

theorem carriesPost_of_rule {cfg : Config} {engine reader : Engine} {id : UInt64} {post : Post}
    (rule : engine.PostRule id) (read : engine.getPost cfg id = (reader, .ok post))
    (number : UInt32) (time : Int64) (editor : Bytes × PersonID) (action reason : Bytes) :
    CarriesPost post
      (storedPostRevision (revisionOfPost post number time editor action reason)) := by
  obtain ⟨row, stored, _found⟩ := getPost_ok read
  obtain ⟨title, community, postFile, creatorName⟩ := getPost_names read stored
  obtain ⟨_shown, _notMax, freeTitle, freeCommunity, freePostFile, freeCreator, _room⟩ :=
    rule row stored
  rw [← title] at freeTitle
  rw [← community] at freeCommunity
  rw [← postFile] at freePostFile
  rw [← creatorName] at freeCreator
  constructor
  · rfl
  · exact headerValue_of_lineFree freeCommunity
  · exact headerValue_of_lineFree freePostFile
  · exact headerValue_of_lineFree freeTitle
  · exact headerValue_of_lineFree freeCreator
  · rfl
  · rfl
  · rfl

theorem carriesComment_of_rule {engine : Engine} {id : UInt64} {floor : UInt32}
    {comment : Comment} (rule : engine.CommentRule id floor)
    (found : engine.getComment id floor = some comment) (number : UInt32) (time : Int64)
    (editor : Bytes × PersonID) (action reason : Bytes) :
    CarriesComment comment
      (storedCommentRevision (revisionOfComment comment number time editor action reason)) := by
  obtain ⟨noType, freeCreator, freeIP, _room⟩ := rule comment found
  constructor
  · rfl
  · rfl
  · exact headerValue_of_lineFree freeCreator
  · rfl
  · rfl
  · exact headerValue_of_lineFree freeIP
  · exact noType.symm
  · rfl

theorem historyLogged_step (cfg : Config) {engine : Engine} {id : UInt64} {op : Op}
    {posts : List Post} {comments : UInt32 → List Comment}
    (logged : HistoryLogged id engine posts comments) (step : HistoryStep cfg id engine op) :
    HistoryLogged id (engine.after cfg op) (posts ++ (engine.postBefore cfg id op).toList)
      (fun floor => comments floor ++ (engine.commentBefore cfg id op floor).toList) := by
  obtain ⟨revisions, postsLogged, carried, ordered, latest⟩ := logged.posts
  cases step with
  | quiet noPost noComment history shown =>
      constructor
      · refine ⟨revisions, by rw [history]; exact postsLogged, ?_, ordered, ?_⟩
        · rw [noPost, Option.toList_none, List.append_nil]
          exact carried
        · intro revision member row found
          obtain ⟨old, stored, later⟩ := shown row found
          exact le_trans (latest revision member old stored) later
      · intro floor
        rw [history, noComment, Option.toList_none, List.append_nil]
        exact logged.comments floor
  | post post isPost noComment read rule archives =>
      obtain ⟨reader, read⟩ := read
      obtain ⟨time, editor, action, reason, history, ⟨old, stored, later⟩, shown⟩ :=
        archives.archive
      obtain ⟨_shown, _notMax, _title, _community, _postFile, _creator, room⟩ := rule old stored
      rw [encodePostHistoryKey_eq] at room
      have small := logged_small postsLogged room
      have next := nextPostRevision_numbered postsLogged.numbered small
      generalize number : engine.nextPostRevision id = revision at history next
      constructor
      · refine ⟨revisions ++ [revisionOfPost post revision time editor action reason], ?_, ?_, ?_,
          ?_⟩
        · rw [history, encodePostHistoryKey_eq, List.map_append, List.map_singleton]
          exact postsLogged.append next _
        · rw [isPost, Option.toList_some]
          exact List.rel_append carried (.cons (carriesPost_of_rule rule read _ _ _ _ _) .nil)
        · refine List.pairwise_append.mpr ⟨ordered, List.pairwise_singleton _ _, ?_⟩
          intro earlier member last isLast
          rw [List.mem_singleton.mp isLast]
          exact lt_of_le_of_lt (latest earlier member old stored) later
        · intro earlier member row found
          rw [shown row found]
          rcases List.mem_append.mp member with before | isLast
          · exact le_of_lt (lt_of_le_of_lt (latest earlier before old stored) later)
          · rw [List.mem_singleton.mp isLast]
            exact le_refl _
      · intro floor
        rw [noComment, Option.toList_none, List.append_nil]
        obtain ⟨others, commentsLogged, commentsCarried⟩ := logged.comments floor
        refine ⟨others, ?_, commentsCarried⟩
        rw [history]
        exact commentsLogged.set_outside (postHistoryKey_outside_comment _ _ _ _) _
  | comment floor comment noPost isComment found rule archives =>
      obtain ⟨time, editor, action, reason, history⟩ := archives.archive
      constructor
      · refine ⟨revisions, ?_, ?_, ordered, ?_⟩
        · rw [history]
          exact postsLogged.set_outside (commentHistoryKey_outside_post _ _ _ _) _
        · rw [noPost, Option.toList_none, List.append_nil]
          exact carried
        · intro revision member row isRow
          obtain ⟨old, stored, later⟩ := archives.shown row isRow
          exact le_trans (latest revision member old stored) later
      · intro other
        obtain ⟨others, commentsLogged, commentsCarried⟩ := logged.comments other
        rw [isComment other]
        by_cases same : other = floor
        · subst same
          obtain ⟨_noType, _creator, _ip, room⟩ := rule comment found
          rw [encodeCommentHistoryKey_eq] at room
          have small := logged_small commentsLogged room
          have next := nextCommentRevision_numbered commentsLogged.numbered small
          generalize number : engine.nextCommentRevision id other = revision at history next
          refine ⟨others ++ [revisionOfComment comment revision time editor action reason], ?_, ?_⟩
          · rw [history, encodeCommentHistoryKey_eq, List.map_append, List.map_singleton]
            exact commentsLogged.append next _
          · rw [if_pos rfl, Option.toList_some]
            exact List.rel_append commentsCarried
              (.cons (carriesComment_of_rule rule found _ _ _ _ _) .nil)
        · rw [if_neg same, Option.toList_none, List.append_nil]
          refine ⟨others, ?_, commentsCarried⟩
          rw [history]
          exact commentsLogged.set_outside
            (commentHistoryKey_outside_floor (Ne.symm same) _) _

theorem historyLogged_run (cfg : Config) {id : UInt64} {ops : List Op} {engine : Engine}
    {posts : List Post} {comments : UInt32 → List Comment}
    (logged : HistoryLogged id engine posts comments) (edits : ∀ op ∈ ops, op.edits id)
    (keeps : StepsMeet (after cfg) (KeepsHistory cfg id) engine ops) :
    HistoryLogged id (engine.runOps cfg ops) (posts ++ postLog cfg id engine ops)
      (fun floor => comments floor ++ commentLog cfg id floor engine ops) := by
  induction ops generalizing engine posts comments with
  | nil =>
      simp only [postLog, commentLog, List.append_nil]
      exact logged
  | cons op rest ih =>
      have step := historyStep_of_keeps cfg (edits op List.mem_cons_self) keeps.1
      have further := ih (historyLogged_step cfg logged step)
        (fun other member => edits other (List.mem_cons_of_mem _ member)) keeps.2
      simp only [List.append_assoc] at further
      exact further

def HistoryEmpty (id : UInt64) (engine : Engine) : Prop :=
  ∀ key, (encodePostHistoryPrefix id <+: key ∨
    ∃ floor, encodeCommentHistoryPrefix id floor <+: key) → engine.historyDB.get? key = none

theorem historyLogged_empty {id : UInt64} {engine : Engine} (empty : engine.HistoryEmpty id) :
    HistoryLogged id engine [] (fun _ => []) := by
  constructor
  · exact ⟨[], logged_nil (fun key stemmed => empty key (Or.inl stemmed)), .nil, .nil,
      fun _ member => nomatch member⟩
  · intro floor
    exact ⟨[], logged_nil (fun key stemmed => empty key (Or.inr ⟨floor, stemmed⟩)), .nil⟩

private theorem read_log {Revision : Type} {db : Pebble} {stem : Bytes}
    {encode : Revision → Bytes} {decode : Bytes → Option Revision} {stored : Revision → Revision}
    (inverse : ∀ revision, decode (encode revision) = some (stored revision))
    {revisions : List Revision} (logged : Logged db stem (revisions.map encode)) :
    (∀ number : UInt32, ((db.get? (numberedKey stem number)).bind decode).isSome ↔
      1 ≤ number.toNat ∧ number.toNat ≤ revisions.length) ∧
    ∀ (index : Nat) (number : UInt32), number.toNat = index + 1 →
      (db.get? (numberedKey stem number)).bind decode = (revisions.map stored)[index]? := by
  have reads : ∀ (index : Nat) (number : UInt32), number.toNat = index + 1 →
      (db.get? (numberedKey stem number)).bind decode = (revisions.map stored)[index]? := by
    intro index number position
    rw [logged.stored index number position, List.getElem?_map, List.getElem?_map]
    cases revisions[index]? with
    | none => rfl
    | some revision => exact inverse revision
  refine ⟨fun number => ?_, reads⟩
  by_cases zero : number.toNat = 0
  · have absent := logged.numbered.get?_isSome_iff number
    constructor
    · intro present
      obtain ⟨revision, found⟩ := Option.isSome_iff_exists.mp present
      obtain ⟨value, stored, _decoded⟩ := Option.bind_eq_some_iff.mp found
      rw [stored] at absent
      have := absent.mp rfl
      omega
    · intro bounds
      omega
  · rw [reads (number.toNat - 1) number (by omega), List.getElem?_map, Option.isSome_map,
      isSome_getElem?]
    omega

theorem HistoryLogged.complete {id : UInt64} {engine : Engine} {posts : List Post}
    {comments : UInt32 → List Comment} (logged : HistoryLogged id engine posts comments) :
    HistoryComplete id engine posts comments := by
  constructor
  · obtain ⟨revisions, postsLogged, carried, ordered, _latest⟩ := logged.posts
    obtain ⟨present, reads⟩ :=
      read_log decodeRFC822PostRevision_encodeRFC822PostRevision postsLogged
    refine ⟨revisions.map storedPostRevision, fun number => ?_, fun index number position => ?_,
      ?_, ?_⟩
    · rw [carried.length_eq, ← present number, getPostHistory, encodePostHistoryKey_eq]
    · rw [← reads index number position, getPostHistory, encodePostHistoryKey_eq]
    · exact List.forall₂_map_right_iff.mpr carried
    · exact List.pairwise_map.mpr ordered
  · intro floor
    obtain ⟨revisions, commentsLogged, carried⟩ := logged.comments floor
    obtain ⟨present, reads⟩ :=
      read_log decodeRFC822CommentRevision_encodeRFC822CommentRevision commentsLogged
    refine ⟨revisions.map storedCommentRevision, fun number => ?_, fun index number position => ?_,
      ?_⟩
    · rw [carried.length_eq, ← present number, getCommentHistory, encodeCommentHistoryKey_eq]
    · rw [← reads index number position, getCommentHistory, encodeCommentHistoryKey_eq]
    · exact List.forall₂_map_right_iff.mpr carried

/-- A run of edits under the condition leaves the history of a post and its
comments complete. -/
theorem historyComplete_of_keeps (cfg : Config) (engine : Engine) (id : UInt64) (ops : List Op)
    (empty : engine.HistoryEmpty id) (edits : ∀ op ∈ ops, op.edits id)
    (keeps : StepsMeet (after cfg) (KeepsHistory cfg id) engine ops) :
    HistoryComplete id (engine.runOps cfg ops) (postLog cfg id engine ops)
      (fun floor => commentLog cfg id floor engine ops) :=
  (historyLogged_run cfg (historyLogged_empty empty) edits keeps).complete

def pushedEngine : Engine :=
  ((firstEngine 100).addComment {} 101 { bobComment with legacyType := 1 }).1

theorem firstEngine_historyEmpty : (firstEngine 100).HistoryEmpty 1 := by
  have none : (firstEngine 100).historyDB = OrderedMap.empty := by decide +kernel
  intro key _stemmed
  rw [none]
  rfl

def threeEdits : List Op :=
  [.updatePost 100 { postID := 1, newTitle := [], newContent := utf8 "second\n" },
    .updatePostTitle 90 1 (utf8 "hello again") [] 0,
    .deletePost 200 1 [] 0 []]

/-- Two edits and a deletion of the first post. -/
theorem historyComplete_three_edits :
    HistoryComplete 1 ((firstEngine 100).runOps {} threeEdits)
        (postLog {} 1 (firstEngine 100) threeEdits)
        (fun floor => commentLog {} 1 floor (firstEngine 100) threeEdits) ∧
      (postLog {} 1 (firstEngine 100) threeEdits).length = 3 :=
  ⟨historyComplete_of_keeps {} (firstEngine 100) 1 threeEdits firstEngine_historyEmpty
    (by decide +kernel) (by decide +kernel), by decide +kernel⟩

/-- The archived comment has lost its type. -/
theorem archived_comment_without_type :
    let ops : List Op := [.updateComment 105 1 1 (utf8 "pushed") [] 0]
    pushedEngine.HistoryEmpty 1 ∧ (∀ op ∈ ops, op.edits 1) ∧
      (pushedEngine.getComment 1 1).map Comment.legacyType = some 1 ∧
      ((pushedEngine.runOps {} ops).getCommentHistory 1 1 1).map CommentRevision.legacyType =
        some 0 ∧
      ¬ HistoryComplete 1 (pushedEngine.runOps {} ops) (postLog {} 1 pushedEngine ops)
        (fun floor => commentLog {} 1 floor pushedEngine ops) := by
  have found : ((pushedEngine.runOps {}
      [.updateComment 105 1 1 (utf8 "pushed") [] 0]).getCommentHistory 1 1 1).map
        CommentRevision.legacyType = some 0 := by decide +kernel
  have logged : (commentLog {} 1 1 pushedEngine
      [.updateComment 105 1 1 (utf8 "pushed") [] 0]).map Comment.legacyType = [1] := by
    decide +kernel
  refine ⟨?_, by decide +kernel, by decide +kernel, found, fun complete => ?_⟩
  · have none : pushedEngine.historyDB = OrderedMap.empty := by decide +kernel
    intro key _stemmed
    rw [none]
    rfl
  · obtain ⟨revisions, _numbered, reads, carried⟩ := complete.comments 1
    rw [reads 0 1 rfl] at found
    generalize commentLog {} 1 1 pushedEngine _ = comments at carried logged
    cases carried with
    | nil => cases logged
    | cons carries _rest =>
        have archivedType := carries.legacyType
        rw [(List.cons.inj logged).1] at archivedType
        rw [List.getElem?_cons_zero, Option.map_some, archivedType] at found
        exact absurd found (by decide)

end Engine

end Pttbbs.PostSvc
