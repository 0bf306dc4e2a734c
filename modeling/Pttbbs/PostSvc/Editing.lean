/-
Editing, deleting and restoring posts and comments, and their history.

Before a post or comment changes, what it was is archived under the revision
after the last one found.  The edits of a post move its time of modification
past the old one; the other operations take the clock as it is.  Failures of the
SQLite statements at the end of an edit are ignored by the source.
-/

import Pttbbs.PostSvc.Engine

namespace Pttbbs.PostSvc

open Pttbbs.Lib

/-- The name and id an edit is booked under: without a name, the creator's. -/
def editorOf (name : Bytes) (id : PersonID) (creatorName : Bytes) (creatorID : PersonID) :
    Bytes × PersonID :=
  if name = [] then (creatorName, creatorID) else (name, id)

/-- The time of an edit: the clock, or one past the last modification. -/
def editTime (now modified : Int64) : Int64 := if now ≤ modified then modified + 1 else now

def revisionOfPost (post : Post) (revision : UInt32) (editedAt : Int64)
    (editor : Bytes × PersonID) (action reason : Bytes) : PostRevision :=
  { postID := post.id
    revision := revision
    community := post.community
    postFile := post.postFile
    title := post.title
    creatorName := post.creatorName
    creatorID := post.creatorID
    createdAt := post.createdAt
    editedAt := editedAt
    editorName := editor.1
    editorID := editor.2
    action := action
    reason := reason
    content := post.content }

/-- The source copies no legacy type here. -/
def revisionOfComment (comment : Comment) (revision : UInt32) (editedAt : Int64)
    (editor : Bytes × PersonID) (action reason : Bytes) : CommentRevision :=
  { postID := comment.postID
    sequence := comment.sequence
    revision := revision
    creatorName := comment.creatorName
    creatorID := comment.creatorID
    createdAt := comment.createdAt
    editedAt := editedAt
    editorName := editor.1
    editorID := editor.2
    ip := comment.ip
    action := action
    reason := reason
    content := comment.content }

structure PostEdit where
  postID : UInt64
  newTitle : Bytes
  newContent : Bytes
  editorName : Bytes := []
  editorID : PersonID := 0
  expectedModified : Int64 := 0
deriving DecidableEq

/-- What an edit finds when it is held against the post it read. -/
inductive EditCheck where
  | conflict
  | unchanged
  | changed
deriving DecidableEq

namespace PostEdit

def title (edit : PostEdit) : Bytes := headerValue edit.newTitle

def changes (edit : PostEdit) (post : Post) : Bool :=
  (edit.title ≠ [] && edit.title ≠ post.title) || edit.newContent ≠ post.content

def check (edit : PostEdit) (post : Post) : EditCheck :=
  if 0 < edit.expectedModified && 0 < post.modified &&
      post.modified ≠ edit.expectedModified then .conflict
  else if edit.changes post then .changed
  else .unchanged

def archived (edit : PostEdit) (post : Post) (revision : UInt32) (now : Int64) : PostRevision :=
  revisionOfPost post revision (editTime now post.modified)
    (editorOf edit.editorName edit.editorID post.creatorName post.creatorID) [] []

def apply (edit : PostEdit) (post : Post) (now : Int64) : Post :=
  { post with
    title := if edit.title ≠ [] then edit.title else post.title
    content := edit.newContent
    modified := editTime now post.modified }

end PostEdit

namespace Engine

/-! ### Revisions -/

def revisionAfter (scan : List (Bytes × Bytes)) (decode : Bytes → Option UInt32) : UInt32 :=
  match scan.getLast? with
  | some entry => ((decode entry.1).map (· + 1)).getD 1
  | none => 1

def nextPostRevision (engine : Engine) (postID : UInt64) : UInt32 :=
  revisionAfter (scanPrefix engine.historyDB (encodePostHistoryPrefix postID))
    (fun key => (decodePostHistoryKey key).map Prod.snd)

def nextCommentRevision (engine : Engine) (postID : UInt64) (sequence : UInt32) : UInt32 :=
  revisionAfter (scanPrefix engine.historyDB (encodeCommentHistoryPrefix postID sequence))
    (fun key => (decodeCommentHistoryKey key).map (fun parts => parts.2.2))

def setPostRevision (engine : Engine) (revision : PostRevision) : Engine :=
  { engine with
    historyDB := engine.historyDB.set
      (encodePostHistoryKey revision.postID revision.revision)
      (encodeRFC822PostRevision revision) }

def setCommentRevision (engine : Engine) (revision : CommentRevision) : Engine :=
  { engine with
    historyDB := engine.historyDB.set
      (encodeCommentHistoryKey revision.postID revision.sequence revision.revision)
      (encodeRFC822CommentRevision revision) }

def getPostHistory (engine : Engine) (postID : UInt64) (revision : UInt32) :
    Option PostRevision :=
  (engine.historyDB.get? (encodePostHistoryKey postID revision)).bind decodeRFC822PostRevision

def listPostHistory (engine : Engine) (postID : UInt64) : List PostRevision :=
  (scanPrefix engine.historyDB (encodePostHistoryPrefix postID)).filterMap
    (fun entry => decodeRFC822PostRevision entry.2)

def getCommentHistory (engine : Engine) (postID : UInt64) (sequence revision : UInt32) :
    Option CommentRevision :=
  (engine.historyDB.get? (encodeCommentHistoryKey postID sequence revision)).bind
    decodeRFC822CommentRevision

def listCommentHistory (engine : Engine) (postID : UInt64) (sequence : UInt32) :
    List CommentRevision :=
  (scanPrefix engine.historyDB (encodeCommentHistoryPrefix postID sequence)).filterMap
    (fun entry => decodeRFC822CommentRevision entry.2)

/-! ### Posts -/

/-- `UPDATE posts SET title = ?, modified = ? WHERE id = ?`. -/
def setRowTitle (engine : Engine) (post : Post) : Engine :=
  { engine with
    metaDB := engine.metaDB.updatePost post.id (fun row =>
      { row with title := post.title, modified := post.modified }) }

/-- The row takes over deletion state and time; nothing happens if the driver
refuses the moderator's id. -/
def setRowDeletion (engine : Engine) (post : Post) : Engine :=
  if bindable post.deletion.modPersonID then
    { engine with
      metaDB := engine.metaDB.updatePost post.id (fun row =>
        { row with deletion := post.deletion, modified := post.modified }) }
  else engine

def updatePost (cfg : Config) (engine : Engine) (now : Int64) (edit : PostEdit) :
    Outcome (UInt32 × Int64) :=
  match engine.getPost cfg edit.postID with
  | (engine, .error failure) => (engine, .error failure)
  | (engine, .ok post) =>
      match edit.check post with
      | .conflict => (engine, .error (.conflict post.modified))
      | .unchanged => (engine, .ok (0, post.modified))
      | .changed =>
          let revision := engine.nextPostRevision edit.postID
          let edited := edit.apply post now
          let engine := engine.setPostRevision (edit.archived post revision now)
          let engine := (engine.setPostRecord edited).setRowTitle edited
          (engine.renderAndSave cfg edited, .ok (revision, edited.modified))

/-- Only SQLite keeps the new title; the Pebble record is left as it is. -/
def updatePostTitle (cfg : Config) (engine : Engine) (now : Int64) (postID : UInt64)
    (newTitle editorName : Bytes) (editorID : PersonID) : Outcome UInt32 :=
  match engine.getPost cfg postID with
  | (engine, .error failure) => (engine, .error failure)
  | (engine, .ok post) =>
      let newTitle := headerValue newTitle
      if newTitle = [] || newTitle = post.title then (engine, .ok 0)
      else
        let revision := engine.nextPostRevision postID
        let now := editTime now post.modified
        let engine := engine.setPostRevision (revisionOfPost post revision now
          (editorOf editorName editorID post.creatorName post.creatorID)
          (utf8 "update_title") [])
        let post := { post with title := newTitle, modified := now }
        ((engine.setRowTitle post).renderAndSave cfg post, .ok revision)

def deletePost (cfg : Config) (engine : Engine) (now : Int64) (postID : UInt64)
    (deleterName : Bytes) (deleterID : PersonID) (reason : Bytes) : Outcome UInt32 :=
  match engine.getPost cfg postID with
  | (engine, .error failure) => (engine, .error failure)
  | (engine, .ok post) =>
      if post.deletion.deletedOrRemoved then (engine, .ok 0)
      else
        let deleter := editorOf deleterName deleterID post.creatorName post.creatorID
        let revision := engine.nextPostRevision postID
        let now := editTime now post.modified
        let engine := engine.setPostRevision
          (revisionOfPost post revision now deleter (utf8 "delete") reason)
        let post := { post with
          deletion := Deletion.delete post.creatorName post.creatorID deleter.1 deleter.2
            reason now
          modified := now }
        let engine := (engine.setPostRecord post).setRowDeletion post
        (engine.renderAndSave cfg post, .ok revision)

def undeletePost (cfg : Config) (engine : Engine) (now : Int64) (postID : UInt64) :
    Outcome Unit :=
  match engine.getPost cfg postID with
  | (engine, .error failure) => (engine, .error failure)
  | (engine, .ok post) =>
      if post.deletion.deletedOrRemoved then
        let post := { post with deletion := Deletion.restore, modified := now }
        let engine := (engine.setPostRecord post).setRowDeletion post
        (engine.renderAndSave cfg post, .ok ())
      else (engine, .ok ())

/-! ### Comments -/

def readComment (engine : Engine) (postID : UInt64) (sequence : UInt32) :
    Except EngineError Comment :=
  match engine.commentsDB.get? (encodeCommentKey postID sequence) with
  | none => .error (.wrapped s!"comment {postID}/{sequence} not found" .pebbleNotFound)
  | some value =>
      match decodeRFC822Comment postID sequence value with
      | none => .error .invalidComment
      | some comment => .ok comment

def rerenderPost (cfg : Config) (engine : Engine) (postID : UInt64) : Engine :=
  match engine.getPost cfg postID with
  | (engine, .error _) => engine
  | (engine, .ok post) => engine.renderAndSave cfg post

/-- The same, with the time of modification set to the clock before. -/
def touchPost (cfg : Config) (engine : Engine) (now : Int64) (postID : UInt64) : Engine :=
  match engine.getPost cfg postID with
  | (engine, .error _) => engine
  | (engine, .ok post) =>
      let engine := { engine with
        metaDB := engine.metaDB.updatePost post.id (fun row => { row with modified := now }) }
      engine.renderAndSave cfg { post with modified := now }

def updateComment (cfg : Config) (engine : Engine) (now : Int64) (postID : UInt64)
    (sequence : UInt32) (newContent editorName : Bytes) (editorID : PersonID) :
    Outcome UInt32 :=
  match engine.readComment postID sequence with
  | .error failure => (engine, .error failure)
  | .ok comment =>
      let newContent := truncateCommentLines newContent maxCommentLines
      if newContent = comment.content then (engine, .ok 0)
      else
        let revision := engine.nextCommentRevision postID sequence
        let engine := engine.setCommentRevision (revisionOfComment comment revision now
          (editorOf editorName editorID comment.creatorName comment.creatorID)
          (utf8 "edit") [])
        let engine := engine.setCommentRecord
          { comment with content := newContent, modifiedAt := now }
        (engine.touchPost cfg now postID, .ok revision)

/-- The deleted comment keeps its floor and stays counted. -/
def deleteComment (cfg : Config) (engine : Engine) (now : Int64) (postID : UInt64)
    (sequence : UInt32) (deleterName : Bytes) (deleterID : PersonID) (reason : Bytes) :
    Outcome UInt32 :=
  match engine.readComment postID sequence with
  | .error failure => (engine, .error failure)
  | .ok comment =>
      if comment.deletion.deletedOrRemoved then (engine, .ok 0)
      else
        let deleter := editorOf deleterName deleterID comment.creatorName comment.creatorID
        let revision := engine.nextCommentRevision postID sequence
        let engine := engine.setCommentRevision
          (revisionOfComment comment revision now deleter (utf8 "delete") reason)
        let engine := engine.setCommentRecord
          { comment with
            deletion := Deletion.delete comment.creatorName comment.creatorID deleter.1
              deleter.2 reason now }
        (engine.rerenderPost cfg postID, .ok revision)

def undeleteComment (cfg : Config) (engine : Engine) (postID : UInt64) (sequence : UInt32) :
    Outcome Unit :=
  match engine.readComment postID sequence with
  | .error failure => (engine, .error failure)
  | .ok comment =>
      if comment.deletion.deletedOrRemoved then
        let engine := engine.setCommentRecord { comment with deletion := Deletion.restore }
        (engine.rerenderPost cfg postID, .ok ())
      else (engine, .ok ())

end Engine

end Pttbbs.PostSvc
