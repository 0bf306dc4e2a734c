/-
The operations of an engine as one step function.

A step takes the arguments of a call and, where the source reads the clock, the
reading.  The variants that name a post by community and file are a read followed
by the operation on the id.  A run is a list of calls; calls that fail are part
of it and leave the state they leave.
-/

import Pttbbs.Lib.Runs
import Pttbbs.PostSvc.Frame
import Pttbbs.PostSvc.Recovery

namespace Pttbbs.PostSvc

open Pttbbs.Lib

structure CrosspostCall where
  srcCommunity : Bytes
  srcPostFile : Bytes
  targetCommunity : Bytes
  targetPostFile : Bytes
  creatorName : Bytes := []
  creatorID : PersonID := 0
  createdAt : Int64 := 0
deriving DecidableEq

inductive Op where
  | createPost (now : Int64) (post : Post)
  | getPost (postID : UInt64)
  | getPostByCommunityFile (community postFile : Bytes)
  | setPostContent (postID : UInt64) (content : Bytes)
  | setPostMeta (community postFile : Bytes) (filemode money : Int64)
  | renderFullPostText (postID : UInt64) (asBig5 : Bool)
  | updatePost (now : Int64) (edit : PostEdit)
  | updatePostTitle (now : Int64) (postID : UInt64) (newTitle editorName : Bytes)
      (editorID : PersonID)
  | deletePost (now : Int64) (postID : UInt64) (deleterName : Bytes) (deleterID : PersonID)
      (reason : Bytes)
  | undeletePost (now : Int64) (postID : UInt64)
  | addComment (now : Int64) (comment : Comment)
  | updateComment (now : Int64) (postID : UInt64) (sequence : UInt32)
      (newContent editorName : Bytes) (editorID : PersonID)
  | deleteComment (now : Int64) (postID : UInt64) (sequence : UInt32) (deleterName : Bytes)
      (deleterID : PersonID) (reason : Bytes)
  | undeleteComment (postID : UInt64) (sequence : UInt32)
  | votePost (now : Int64) (postID : UInt64) (personName : Bytes) (personID : PersonID)
      (newVote : VoteType) (createdAt : Int64) (ip : Bytes)
  | resetVotes (postID : UInt64)
  | addCrosspost (now : Int64) (call : CrosspostCall)
  | purgeUserComments (author : Bytes) (minTimestamp : Int64)
  | purgeUserPosts (author : Bytes) (minTimestamp : Int64)
  | purgePost (postID : UInt64)
  | deleteCommunity (community : Bytes)
  | importPostBatch (batch : List ImportedPostData)
  | flushDirtyDeltas
  | rebuildSQLiteFromPebble
  | restart

inductive Reply where
  | unit
  | post (post : Post)
  | text (bytes : Bytes)
  | edited (revision : UInt32) (modified : Int64)
  | revision (revision : UInt32)
  | comment (comment : Comment)
  | crosspost (crosspost : CrosspostRecord) (count : Int)
  | deltas (up down : Int)
  | count (number : Nat)
  | counts (first second : Nat)
  | ids (ids : List UInt64)
deriving DecidableEq

def Outcome.reply {α : Type} (outcome : Outcome α) (wrap : α → Reply) : Outcome Reply :=
  (outcome.1, outcome.2.map wrap)

@[simp] theorem Outcome.reply_fst {α : Type} (outcome : Outcome α) (wrap : α → Reply) :
    (outcome.reply wrap).1 = outcome.1 := rfl

namespace Engine

def step (cfg : Config) (engine : Engine) : Op → Outcome Reply
  | .createPost now post => Outcome.reply (engine.createPost cfg now post) .post
  | .getPost postID => Outcome.reply (engine.getPost cfg postID) .post
  | .getPostByCommunityFile community postFile =>
      Outcome.reply (engine.getPostByCommunityFile cfg community postFile) .post
  | .setPostContent postID content =>
      Outcome.reply (engine.setPostContent cfg postID content) (fun _ => .unit)
  | .setPostMeta community postFile filemode money =>
      Outcome.reply (engine.setPostMeta cfg community postFile filemode money) (fun _ => .unit)
  | .renderFullPostText postID asBig5 =>
      Outcome.reply (engine.renderFullPostText cfg postID asBig5) .text
  | .updatePost now edit =>
      Outcome.reply (engine.updatePost cfg now edit) (fun value => .edited value.1 value.2)
  | .updatePostTitle now postID newTitle editorName editorID =>
      Outcome.reply (engine.updatePostTitle cfg now postID newTitle editorName editorID)
        .revision
  | .deletePost now postID deleterName deleterID reason =>
      Outcome.reply (engine.deletePost cfg now postID deleterName deleterID reason) .revision
  | .undeletePost now postID =>
      Outcome.reply (engine.undeletePost cfg now postID) (fun _ => .unit)
  | .addComment now comment =>
      let added := engine.addComment cfg now comment
      (added.1, .ok (.comment added.2))
  | .updateComment now postID sequence newContent editorName editorID =>
      Outcome.reply
        (engine.updateComment cfg now postID sequence newContent editorName editorID) .revision
  | .deleteComment now postID sequence deleterName deleterID reason =>
      Outcome.reply
        (engine.deleteComment cfg now postID sequence deleterName deleterID reason) .revision
  | .undeleteComment postID sequence =>
      Outcome.reply (engine.undeleteComment cfg postID sequence) (fun _ => .unit)
  | .votePost now postID personName personID newVote createdAt ip =>
      let voted := engine.votePost now postID personName personID newVote createdAt ip
      (voted.1, .ok (.deltas voted.2.1 voted.2.2))
  | .resetVotes postID => (engine.resetVotes postID, .ok .unit)
  | .addCrosspost now call =>
      Outcome.reply (engine.addCrosspost cfg now call.srcCommunity call.srcPostFile
        call.targetCommunity call.targetPostFile call.creatorName call.creatorID call.createdAt)
        (fun value => .crosspost value.1 value.2)
  | .purgeUserComments author minTimestamp =>
      let purged := engine.purgeUserComments author minTimestamp
      (purged.1, .ok (.count purged.2))
  | .purgeUserPosts author minTimestamp =>
      let purged := engine.purgeUserPosts author minTimestamp
      (purged.1, .ok (.count purged.2))
  | .purgePost postID => Outcome.reply (engine.purgePost cfg postID) (fun _ => .unit)
  | .deleteCommunity community =>
      Outcome.reply (engine.deleteCommunity community) (fun value => .counts value.1 value.2)
  | .importPostBatch batch => Outcome.reply (engine.importPostBatch cfg batch) .ids
  | .flushDirtyDeltas => (engine.flushDirtyDeltas, .ok .unit)
  | .rebuildSQLiteFromPebble =>
      Outcome.reply engine.rebuildSQLiteFromPebble (fun value => .counts value.1 value.2)
  | .restart => (engine.restart cfg, .ok .unit)

def after (cfg : Config) (engine : Engine) (op : Op) : Engine := (engine.step cfg op).1

def runOps (cfg : Config) (engine : Engine) (ops : List Op) : Engine :=
  run (after cfg) engine ops

def succeeds (cfg : Config) (engine : Engine) (op : Op) : Bool :=
  match (engine.step cfg op).2 with
  | .ok _ => true
  | .error _ => false

end Engine

end Pttbbs.PostSvc
