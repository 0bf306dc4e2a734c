/-
What an edit of a post or a comment can do.

An edit reads, and then either leaves everything and returns no revision, or archives
what it read, writes it as edited and renders the post.
-/

import Pttbbs.PostSvc.Frame

namespace Pttbbs.PostSvc.Engine

open Pttbbs.Lib

/-- The outcomes of an edit that makes a post by `make` and writes it by `write`. -/
inductive EditsPost {α : Type} (cfg : Config) (engine : Engine) (now : Int64) (id : UInt64)
    (make : Post → Post) (write : Engine → Post → Engine) (revisionOf : α → UInt32) :
    Outcome α → Prop where
  | leaves (result : Except EngineError α)
      (nothing : ∀ value, result = .ok value → revisionOf value = 0) :
      EditsPost cfg engine now id make write revisionOf ((engine.getPost cfg id).1, result)
  | archives (reader : Engine) (post : Post) (editor : Bytes × PersonID) (action reason : Bytes)
      (value : α) (read : engine.getPost cfg id = (reader, .ok post))
      (isRevision : revisionOf value = reader.nextPostRevision id) :
      EditsPost cfg engine now id make write revisionOf
        ((write (reader.setPostRevision (revisionOfPost post (reader.nextPostRevision id)
            (editTime now post.modified) editor action reason)) (make post)).renderAndSave cfg
            (make post),
          .ok value)

/-- The outcomes of an edit that makes a comment by `make` and ends by `ends`. -/
inductive EditsComment (engine : Engine) (now : Int64) (postID : UInt64) (sequence : UInt32)
    (make : Comment → Comment) (ends : Engine → Engine) : Outcome UInt32 → Prop where
  | leaves (result : Except EngineError UInt32)
      (nothing : ∀ revision, result = .ok revision → revision = 0) :
      EditsComment engine now postID sequence make ends (engine, result)
  | archives (comment : Comment) (editor : Bytes × PersonID) (action reason : Bytes)
      (found : engine.getComment postID sequence = some comment) :
      EditsComment engine now postID sequence make ends
        (ends ((engine.setCommentRevision (revisionOfComment comment
            (engine.nextCommentRevision postID sequence) now editor action
            reason)).setCommentRecord (make comment)),
          .ok (engine.nextCommentRevision postID sequence))

section

variable {α : Type} {cfg : Config} {engine reader : Engine} {now : Int64} {id : UInt64}
  {make : Post → Post} {write : Engine → Post → Engine} {revisionOf : α → UInt32}
  {read : Except EngineError Post}

theorem EditsPost.fails (reads : engine.getPost cfg id = (reader, read)) (failure : EngineError) :
    EditsPost cfg engine now id make write revisionOf (reader, .error failure) := by
  have left : reader = (engine.getPost cfg id).1 := by rw [reads]
  rw [left]
  exact .leaves _ (fun _ impossible => nomatch impossible)

theorem EditsPost.quiet (reads : engine.getPost cfg id = (reader, read)) {value : α}
    (zero : revisionOf value = 0) :
    EditsPost cfg engine now id make write revisionOf (reader, .ok value) := by
  have left : reader = (engine.getPost cfg id).1 := by rw [reads]
  rw [left]
  refine .leaves _ (fun other same => ?_)
  cases same
  exact zero

end

section

variable (cfg : Config) (engine : Engine) (now : Int64)

theorem editsPost_updatePost (edit : PostEdit) :
    EditsPost cfg engine now edit.postID (fun post => edit.apply post now)
      (fun before post => (before.setPostRecord post).setRowTitle post) Prod.fst
      (engine.updatePost cfg now edit) := by
  unfold updatePost
  cases read : engine.getPost cfg edit.postID with
  | mk reader result =>
      cases result with
      | error failure => exact .fails read failure
      | ok post =>
          dsimp only
          cases edit.check post with
          | conflict => exact .fails read _
          | unchanged => exact .quiet read rfl
          | changed => exact .archives reader post _ [] [] _ read rfl

theorem editsPost_updatePostTitle (id : UInt64) (newTitle editorName : Bytes)
    (editorID : PersonID) :
    EditsPost cfg engine now id
      (fun post =>
        { post with title := headerValue newTitle, modified := editTime now post.modified })
      setRowTitle (fun revision => revision)
      (engine.updatePostTitle cfg now id newTitle editorName editorID) := by
  unfold updatePostTitle
  cases read : engine.getPost cfg id with
  | mk reader result =>
      cases result with
      | error failure => exact .fails read failure
      | ok post =>
          dsimp only
          split
          · exact .quiet read rfl
          · exact .archives reader post _ (utf8 "update_title") [] _ read rfl

def deletedPost (now : Int64) (deleterName : Bytes) (deleterID : PersonID) (reason : Bytes)
    (post : Post) : Post :=
  let deleter := editorOf deleterName deleterID post.creatorName post.creatorID
  { post with
    deletion := Deletion.delete post.creatorName post.creatorID deleter.1 deleter.2 reason
      (editTime now post.modified)
    modified := editTime now post.modified }

theorem editsPost_deletePost (id : UInt64) (deleterName : Bytes) (deleterID : PersonID)
    (reason : Bytes) :
    EditsPost cfg engine now id (deletedPost now deleterName deleterID reason)
      (fun before post => (before.setPostRecord post).setRowDeletion post) (fun revision => revision)
      (engine.deletePost cfg now id deleterName deleterID reason) := by
  unfold deletePost
  cases read : engine.getPost cfg id with
  | mk reader result =>
      cases result with
      | error failure => exact .fails read failure
      | ok post =>
          dsimp only
          split
          · exact .quiet read rfl
          · exact .archives reader post _ (utf8 "delete") reason _ read rfl

theorem editsComment_updateComment (postID : UInt64) (sequence : UInt32)
    (newContent editorName : Bytes) (editorID : PersonID) :
    EditsComment engine now postID sequence
      (fun comment =>
        { comment with
          content := truncateCommentLines newContent maxCommentLines, modifiedAt := now })
      (fun before => before.touchPost cfg now postID)
      (engine.updateComment cfg now postID sequence newContent editorName editorID) := by
  unfold updateComment
  split
  · exact .leaves _ (fun _ impossible => nomatch impossible)
  · rename_i comment read
    dsimp only
    split
    · exact .leaves _ (fun _ same => (Except.ok.inj same).symm)
    · exact .archives comment _ (utf8 "edit") [] (readComment_ok read)

theorem editsComment_deleteComment (postID : UInt64) (sequence : UInt32) (deleterName : Bytes)
    (deleterID : PersonID) (reason : Bytes) :
    EditsComment engine now postID sequence
      (fun comment =>
        let deleter := editorOf deleterName deleterID comment.creatorName comment.creatorID
        { comment with
          deletion := Deletion.delete comment.creatorName comment.creatorID deleter.1 deleter.2
            reason now })
      (fun before => before.rerenderPost cfg postID)
      (engine.deleteComment cfg now postID sequence deleterName deleterID reason) := by
  unfold deleteComment
  split
  · exact .leaves _ (fun _ impossible => nomatch impossible)
  · rename_i comment read
    dsimp only
    split
    · exact .leaves _ (fun _ same => (Except.ok.inj same).symm)
    · exact .archives comment _ (utf8 "delete") reason (readComment_ok read)

end

end Pttbbs.PostSvc.Engine
