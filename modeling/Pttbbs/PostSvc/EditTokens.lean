/-
The time of modification as a token for edits.

A client that read a post at some time of modification may edit it as long as
that time still stands.  The token is good if the time never goes back and every
change of title or content moves it forward.  Edits do move it forward; the
operations that take the clock as it is, or write a record without the row, do
not, and are held to a condition.
-/

import Pttbbs.PostSvc.Run
import Pttbbs.PostSvc.Tables
import Pttbbs.PostSvc.EditSteps

namespace Pttbbs.PostSvc

open Pttbbs.Lib

structure TextView where
  title : Bytes
  content : Bytes
  modified : Int64
deriving DecidableEq

def PostRow.shownModified (row : PostRow) : Int64 :=
  if row.modified = 0 then row.createdAt else row.modified

def PostRow.text (row : PostRow) : Bytes × Int64 := (row.title, row.shownModified)

namespace Engine

def view (engine : Engine) (id : UInt64) : Option TextView :=
  ((engine.metaDB.posts.get? id).map PostRow.text).bind (fun text =>
    (engine.recordContent id).map (fun content => ⟨text.1, content, text.2⟩))

/-- Rendering the post would take over the text of a board file. -/
def fills (cfg : Config) (engine : Engine) (id : UInt64) : Bool :=
  engine.recordContent id = some [] &&
    (engine.metaDB.posts.get? id).any (fun row =>
      (engine.articleText cfg (postOfRow id row)).isSome)

end Engine

def TextView.Follows (old new : TextView) : Prop :=
  old.modified ≤ new.modified ∧ (new.modified = old.modified → new = old)

namespace TextView.Follows

theorem refl (view : TextView) : view.Follows view := ⟨le_refl _, fun _ => rfl⟩

theorem trans {first second third : TextView} (left : first.Follows second)
    (right : second.Follows third) : first.Follows third := by
  refine ⟨le_trans left.1 right.1, fun same => ?_⟩
  have middle : second.modified = first.modified :=
    le_antisymm (same ▸ right.1) left.1
  rw [right.2 (same.trans middle.symm), left.2 middle]

theorem of_lt {old new : TextView} (later : old.modified < new.modified) : old.Follows new :=
  ⟨le_of_lt later, fun same => absurd same (ne_of_gt later)⟩

end TextView.Follows

namespace Engine

/-! ### What a view depends on -/

theorem view_eq_some_iff {engine : Engine} {id : UInt64} {view : TextView} :
    engine.view id = some view ↔
      ∃ row, engine.metaDB.posts.get? id = some row ∧ row.title = view.title ∧
        row.shownModified = view.modified ∧ engine.recordContent id = some view.content := by
  unfold Engine.view
  constructor
  · intro seen
    obtain ⟨text, textEq, rest⟩ := Option.bind_eq_some_iff.mp seen
    obtain ⟨row, found, rfl⟩ := Option.map_eq_some_iff.mp textEq
    obtain ⟨content, contentEq, rfl⟩ := Option.map_eq_some_iff.mp rest
    exact ⟨row, found, rfl, rfl, contentEq⟩
  · rintro ⟨row, found, titleEq, timeEq, contentEq⟩
    rw [found, contentEq]
    simp only [Option.map_some, Option.bind_some, PostRow.text, titleEq, timeEq]

theorem view_congr {before after : Engine} {id : UInt64}
    (row : (after.metaDB.posts.get? id).map PostRow.text =
      (before.metaDB.posts.get? id).map PostRow.text)
    (record : after.recordContent id = before.recordContent id) :
    after.view id = before.view id := by
  unfold Engine.view
  rw [row, record]

theorem recordContent_congr {before after : Engine} {id : UInt64}
    (same : after.postsDB.get? (encodePostKey id) = before.postsDB.get? (encodePostKey id)) :
    after.recordContent id = before.recordContent id := by
  unfold recordContent
  rw [same]

theorem view_of_frame {before after : Engine} {id other : UInt64}
    (frame : RecordFrame other before after) (different : other ≠ id) :
    after.view id = before.view id := by
  apply view_congr
  · rw [frame.metaDB]
  · exact recordContent_congr (frame.others _ (fun same =>
      different (encodePostKey_inj.mp same).symm))

theorem getPost_of_view (cfg : Config) {engine : Engine} {id : UInt64} {view : TextView}
    (seen : engine.view id = some view) :
    ∃ post, engine.getPost cfg id = (engine, .ok post) ∧ post.id = id ∧
      post.title = view.title ∧ post.content = view.content ∧
      post.modified = view.modified := by
  obtain ⟨row, found, titleEq, timeEq, contentEq⟩ := view_eq_some_iff.mp seen
  obtain ⟨value, record, decoded⟩ := Option.map_eq_some_iff.mp contentEq
  refine ⟨_, getPost_of_record found record, ?_, ?_, ?_, ?_⟩
  · rw [withRecord_id]
    rfl
  · rw [withRecord_eq]
    exact titleEq
  · rw [withRecord_content]
    exact decoded
  · rw [withRecord_modified]
    exact timeEq

theorem view_getPost (cfg : Config) {engine : Engine} {id : UInt64} {view : TextView}
    (seen : engine.view id = some view) (postID : UInt64) :
    (engine.getPost cfg postID).1.view id = some view := by
  by_cases same : postID = id
  · subst same
    obtain ⟨post, read, _rest⟩ := getPost_of_view cfg seen
    rw [read]
    exact seen
  · rw [view_of_frame (getPost_frame cfg engine postID) same]
    exact seen

theorem recordContent_setPostRecord (engine : Engine) {post : Post} {id : UInt64}
    (same : post.id = id) : (engine.setPostRecord post).recordContent id = some post.content := by
  unfold recordContent setPostRecord
  rw [same, OrderedMap.get?_set_self, Option.map_some, decodeRFC822Post_encodeRFC822Post]

theorem view_setPostRecord {engine : Engine} {id : UInt64} {view : TextView}
    (seen : engine.view id = some view) {post : Post} (same : post.id = id) :
    (engine.setPostRecord post).view id = some { view with content := post.content } := by
  obtain ⟨row, found, titleEq, timeEq, _contentEq⟩ := view_eq_some_iff.mp seen
  exact view_eq_some_iff.mpr
    ⟨row, found, titleEq, timeEq, recordContent_setPostRecord engine same⟩

/-! ### Filling and rendering -/

theorem articleText_congr (cfg : Config) {before after : Engine} {left right : Post}
    (files : after.files = before.files) (community : left.community = right.community)
    (postFile : left.postFile = right.postFile) :
    after.articleText cfg left = before.articleText cfg right := by
  unfold articleText globBoards boardFile
  rw [files, community, postFile]

theorem fills_congr (cfg : Config) {before after : Engine} {id : UInt64}
    (files : after.files = before.files)
    (record : after.recordContent id = before.recordContent id)
    (names : (after.metaDB.posts.get? id).map (fun row => (row.community, row.postFile)) =
      (before.metaDB.posts.get? id).map (fun row => (row.community, row.postFile))) :
    after.fills cfg id = before.fills cfg id := by
  unfold fills
  rw [record]
  congr 1
  cases stored : before.metaDB.posts.get? id with
  | none =>
      rw [stored] at names
      rw [Option.map_eq_none_iff.mp names]
      rfl
  | some row =>
      rw [stored] at names
      obtain ⟨other, found, same⟩ := Option.map_eq_some_iff.mp names
      rw [found]
      have parts := Prod.mk.inj same
      exact congrArg Option.isSome (articleText_congr cfg files parts.1 parts.2)

theorem fillContent_of_view (cfg : Config) {engine : Engine} {id : UInt64} {view : TextView}
    (seen : engine.view id = some view) (still : engine.fills cfg id = false) {post : Post}
    (read : engine.getPost cfg id = (engine, .ok post)) :
    engine.fillContent cfg post = (engine, post) := by
  obtain ⟨found, readFound, _sameID, _title, contentEq, _time⟩ := getPost_of_view cfg seen
  rw [read] at readFound
  cases readFound
  obtain ⟨row, stored, _titleEq, _timeEq, record⟩ := view_eq_some_iff.mp seen
  unfold fillContent
  split
  · rename_i empty
    have noText : engine.articleText cfg post = none := by
      rw [← contentEq, empty] at record
      unfold fills at still
      rw [record, stored] at still
      obtain ⟨row', stored', other⟩ := getPost_ok read
      rw [stored] at stored'
      cases stored'
      have names : engine.articleText cfg post = engine.articleText cfg (postOfRow id row) := by
        rcases other with ⟨value, _record, _same, rfl⟩ | ⟨_missing, rfl, _same⟩
        · rw [withRecord_eq]
          exact articleText_congr cfg rfl rfl rfl
        · exact articleText_congr cfg rfl rfl rfl
      rw [names]
      simpa using still
    rw [noText]
  · rfl

def ReadsDeleted (cfg : Config) (engine : Engine) (id : UInt64) : Prop :=
  ∃ post, engine.getPost cfg id = (engine, .ok post) ∧ post.deletion.deletedOrRemoved = true

theorem view_renderFullPostText (cfg : Config) {engine : Engine} {id : UInt64} {view : TextView}
    (seen : engine.view id = some view) (asBig5 : Bool) :
    ∃ content, (engine.renderFullPostText cfg id asBig5).1.view id =
        some { view with content := content } ∧
      (engine.fills cfg id = false ∨ engine.ReadsDeleted cfg id → content = view.content) := by
  obtain ⟨post, read, sameID, _title, contentEq, _time⟩ := getPost_of_view cfg seen
  by_cases down : post.deletion.deletedOrRemoved = true
  · refine ⟨view.content, ?_, fun _ => rfl⟩
    simp only [renderFullPostText, read, down, if_true]
    exact seen
  · have rendered : (engine.renderFullPostText cfg id asBig5).1 =
        (engine.fillContent cfg post).1 := by
      simp only [renderFullPostText, read, if_neg down]
    rw [rendered]
    by_cases still : engine.fills cfg id = false
    · refine ⟨view.content, ?_, fun _ => rfl⟩
      rw [fillContent_of_view cfg seen still read]
      exact seen
    · unfold fillContent
      split
      · split
        · rename_i text _found
          refine ⟨text, ?_, ?_⟩
          rotate_left
          · rintro (impossible | ⟨other, readOther, isDown⟩)
            · exact absurd impossible still
            · rw [read] at readOther
              cases readOther
              exact absurd isDown down
          rw [sameID]
          simp only [setPostContent, read]
          exact view_setPostRecord seen sameID
        · exact ⟨view.content, seen, fun _ => rfl⟩
      · exact ⟨view.content, seen, fun _ => rfl⟩

theorem view_writeBoardFile (engine : Engine) (id : UInt64) (post : Post) (bytes : Bytes) :
    (engine.writeBoardFile post bytes).view id = engine.view id := by
  have frame := writeBoardFile_frame (id + 1) engine post bytes
  apply view_congr
  · rw [frame.metaDB]
  · unfold writeBoardFile
    split <;> rfl

section

variable (cfg : Config) {engine : Engine} {id : UInt64} {view : TextView}
  (seen : engine.view id = some view)

include cfg seen

theorem view_renderAndSave {post : Post} (same : post.id = id) :
    ∃ content, (engine.renderAndSave cfg post).view id = some { view with content := content } ∧
      (engine.fills cfg id = false ∨ engine.ReadsDeleted cfg id → content = view.content) := by
  obtain ⟨content, rendered, kept⟩ := view_renderFullPostText cfg seen cfg.isBig5
  refine ⟨content, ?_, kept⟩
  unfold renderAndSave
  rw [same]
  cases outcome : engine.renderFullPostText cfg id cfg.isBig5 with
  | mk after result =>
      rw [outcome] at rendered
      cases result with
      | error failure => exact rendered
      | ok text =>
          dsimp only
          rw [view_writeBoardFile]
          exact rendered

theorem view_renderAndSave_of_still (post : Post)
    (still : post.id = id → engine.fills cfg id = false) :
    (engine.renderAndSave cfg post).view id = some view := by
  by_cases same : post.id = id
  · obtain ⟨content, rendered, kept⟩ := view_renderAndSave cfg seen same
    rw [rendered, kept (Or.inl (still same))]
  · rw [view_of_frame (renderAndSave_frame cfg engine post) same]
    exact seen

theorem view_appendCache (post : Post) (text : Bytes)
    (still : post.id = id → engine.fills cfg id = false) :
    (engine.appendCache cfg post text).view id = some view := by
  unfold appendCache
  split
  · exact seen
  · split
    · exact view_renderAndSave_of_still cfg seen post still
    · exact seen

end

/-! ### The condition -/

/-- What an operation may do to a post that somebody is about to edit: not take
the clock for a time before the last one, not write a content past the row, not
fill an empty post, not remove it. -/
def TokenRule (cfg : Config) (id : UInt64) (engine : Engine) (row : PostRow) : Op → Prop
  | .createPost now post =>
      (engine.existingPost (preparePost now post) = some id →
        engine.recordContent id = some post.content) ∧
      (post.parentID = id → engine.fills cfg id = false)
  | .setPostContent postID content => postID = id → engine.recordContent id = some content
  | .renderFullPostText postID _ => postID = id → engine.fills cfg id = false
  | .updatePost _ edit => edit.postID = id → row.shownModified ≠ Int64.maxValue
  | .updatePostTitle _ postID _ _ _ => postID = id → row.shownModified ≠ Int64.maxValue
  | .deletePost _ postID _ _ _ => postID = id → row.shownModified ≠ Int64.maxValue
  | .undeletePost now postID =>
      postID = id → row.shownModified ≤ now ∧ engine.fills cfg id = false
  | .addComment _ comment => comment.postID = id → engine.fills cfg id = false
  | .updateComment now postID _ _ _ _ =>
      postID = id → row.shownModified ≤ now ∧ engine.fills cfg id = false
  | .deleteComment _ postID _ _ _ _ => postID = id → engine.fills cfg id = false
  | .undeleteComment postID _ => postID = id → engine.fills cfg id = false
  | .purgeUserPosts author minTimestamp =>
      ¬ (row.creatorName = author ∧ minTimestamp ≤ row.createdAt)
  | .purgePost postID => postID ≠ id
  | .deleteCommunity community => row.community ≠ community
  | .importPostBatch batch =>
      ∀ item ∈ batch, ¬ (item.post.community = row.community ∧
        item.post.postFile = row.postFile)
  | .rebuildSQLiteFromPebble =>
      ∀ value, engine.postsDB.get? (encodePostKey id) = some value →
        (rebuiltRow (decodeRFC822Post value).1).title = row.title ∧
          row.shownModified ≤ (rebuiltRow (decodeRFC822Post value).1).modified
  | .getPost _ | .getPostByCommunityFile _ _ | .setPostMeta _ _ _ _
  | .votePost _ _ _ _ _ _ _ | .resetVotes _ | .addCrosspost _ _ | .purgeUserComments _ _
  | .flushDirtyDeltas | .restart => True

def KeepsToken (cfg : Config) (id : UInt64) (engine : Engine) (op : Op) : Prop :=
  ∀ row, engine.metaDB.posts.get? id = some row → engine.TokenRule cfg id row op

/-! ### Comments -/

section

variable (cfg : Config) {engine : Engine} {id : UInt64} {view : TextView}
  (seen : engine.view id = some view)

include cfg seen

theorem view_appendCommentCache (comment : Comment)
    (still : comment.postID = id → engine.fills cfg id = false) :
    (engine.appendCommentCache cfg comment).view id = some view := by
  by_cases same : comment.postID = id
  · obtain ⟨post, read, sameID, _rest⟩ := getPost_of_view cfg seen
    unfold appendCommentCache
    rw [same, read]
    exact view_appendCache cfg seen post _ (fun _ => still same)
  · rw [view_of_frame (appendCommentCache_frame cfg engine comment) same]
    exact seen

theorem view_appendMergedCommentCache (postID : UInt64) (content : Bytes)
    (still : postID = id → engine.fills cfg id = false) :
    (engine.appendMergedCommentCache cfg postID content).view id = some view := by
  by_cases same : postID = id
  · subst same
    obtain ⟨post, read, sameID, _rest⟩ := getPost_of_view cfg seen
    unfold appendMergedCommentCache
    rw [read]
    exact view_appendCache cfg seen post _ (fun _ => still rfl)
  · rw [view_of_frame (appendMergedCommentCache_frame cfg engine postID content) same]
    exact seen

theorem view_addComment (now : Int64) (comment : Comment)
    (still : comment.postID = id → engine.fills cfg id = false) :
    (engine.addComment cfg now comment).1.view id = some view := by
  unfold addComment
  dsimp only
  generalize timed : { comment with
    createdAt := if comment.createdAt = 0 then now else comment.createdAt } = stamped
  have stampedID : stamped.postID = comment.postID := by rw [← timed]
  obtain ⟨⟨postSeqs, planned⟩, addedID, _recordID⟩ := planComment_frame cfg engine stamped
  rw [stampedID] at addedID
  cases plan : (engine.planComment cfg stamped).2 with
  | merge previous added =>
      rw [plan] at addedID
      rw [planned]
      simp only [finishComment]
      refine view_appendMergedCommentCache cfg ?_ _ _ ?_
      · exact seen
      · intro same
        exact still (addedID.symm.trans same)
  | append added =>
      rw [plan] at addedID
      rw [planned]
      simp only [finishComment]
      refine view_appendCommentCache cfg ?_ _ ?_
      · exact seen
      · intro same
        exact still (addedID.symm.trans same)

theorem view_rerenderPost (postID : UInt64)
    (still : postID = id → engine.fills cfg id = false) :
    (engine.rerenderPost cfg postID).view id = some view := by
  by_cases same : postID = id
  · subst same
    obtain ⟨post, read, sameID, _rest⟩ := getPost_of_view cfg seen
    unfold rerenderPost
    rw [read]
    exact view_renderAndSave_of_still cfg seen post (fun _ => still rfl)
  · rw [view_of_frame (rerenderPost_frame cfg engine postID) same]
    exact seen

theorem view_touchPost (now : Int64) (postID : UInt64)
    (later : postID = id → 0 < now ∧ engine.fills cfg id = false) :
    (engine.touchPost cfg now postID).view id =
      some { view with modified := if postID = id then now else view.modified } := by
  by_cases same : postID = id
  · subst same
    obtain ⟨positive, still⟩ := later rfl
    obtain ⟨post, read, sameID, _rest⟩ := getPost_of_view cfg seen
    obtain ⟨row, found, titleEq, _timeEq, contentEq⟩ := view_eq_some_iff.mp seen
    unfold touchPost
    rw [read, if_pos rfl]
    dsimp only
    have touched : { engine with metaDB := engine.metaDB.updatePost post.id (fun row =>
        { row with modified := now }) }.view postID =
          some { view with modified := now } := by
      refine view_eq_some_iff.mpr ⟨{ row with modified := now }, ?_, titleEq, ?_, contentEq⟩
      · rw [sameID]
        simp only [MetaDB.updatePost, OrderedMap.get?_modify_self, found, Option.map_some]
      · exact if_neg (ne_of_gt positive)
    apply view_renderAndSave_of_still cfg touched
    intro _self
    rw [← still]
    refine fills_congr cfg ?_ ?_ ?_
    · rfl
    · rfl
    · rw [sameID]
      simp only [MetaDB.updatePost, OrderedMap.get?_modify_self, found, Option.map_some]
  · rw [if_neg same]
    unfold touchPost
    cases read : engine.getPost cfg postID with
    | mk after result =>
        have kept := view_getPost cfg seen postID
        rw [read] at kept
        cases result with
        | error failure => exact kept
        | ok post =>
            have sameID := getPost_id read
            have touched : { after with metaDB := after.metaDB.updatePost post.id (fun row =>
                { row with modified := now }) }.view id = after.view id := by
              apply view_congr
              · simp only [MetaDB.updatePost]
                rw [OrderedMap.get?_modify_of_ne _ _ (by rw [sameID]; exact Ne.symm same)]
              · rfl
            dsimp only
            apply view_renderAndSave_of_still cfg (touched.trans kept)
            intro self
            exact absurd (sameID ▸ self) same

end

/-! ### Edits -/

theorem view_setPostRecord_of_ne (engine : Engine) {id : UInt64} {post : Post}
    (different : post.id ≠ id) : (engine.setPostRecord post).view id = engine.view id :=
  view_of_frame (RecordFrame.setPostRecord engine rfl) different

theorem view_updatePost_row (engine : Engine) (id other : UInt64) (change : PostRow → PostRow)
    (kept : other = id → ∀ row, (change row).text = row.text) :
    { engine with metaDB := engine.metaDB.updatePost other change }.view id = engine.view id := by
  apply view_congr
  · simp only [MetaDB.updatePost]
    by_cases same : other = id
    · subst same
      rw [OrderedMap.get?_modify_self, Option.map_map]
      congr 1
      funext row
      exact kept rfl row
    · rw [OrderedMap.get?_modify_of_ne _ _ (Ne.symm same)]
  · rfl

theorem view_setRowTitle {engine : Engine} {id : UInt64} {view : TextView}
    (seen : engine.view id = some view) {post : Post} (same : post.id = id)
    (positive : 0 < post.modified) :
    (engine.setRowTitle post).view id =
      some { view with title := post.title, modified := post.modified } := by
  obtain ⟨row, found, _titleEq, _timeEq, contentEq⟩ := view_eq_some_iff.mp seen
  refine view_eq_some_iff.mpr
    ⟨{ row with title := post.title, modified := post.modified }, ?_, rfl, ?_, contentEq⟩
  · unfold setRowTitle
    rw [same]
    simp only [MetaDB.updatePost, OrderedMap.get?_modify_self, found, Option.map_some]
  · exact if_neg (ne_of_gt positive)

theorem view_setRowDeletion {engine : Engine} {id : UInt64} {view : TextView}
    (seen : engine.view id = some view) {post : Post} (same : post.id = id)
    (positive : 0 < post.modified) :
    (engine.setRowDeletion post).view id =
      some { view with
        modified :=
          if bindable post.deletion.modPersonID then post.modified else view.modified } := by
  obtain ⟨row, found, titleEq, _timeEq, contentEq⟩ := view_eq_some_iff.mp seen
  unfold setRowDeletion
  split
  · rename_i bound
    refine view_eq_some_iff.mpr
      ⟨{ row with deletion := post.deletion, modified := post.modified }, ?_, titleEq, ?_,
        contentEq⟩
    · rw [same]
      simp only [MetaDB.updatePost, OrderedMap.get?_modify_self, found, Option.map_some]
    · exact if_neg (ne_of_gt positive)
  · exact seen

theorem view_edit_of_ne (cfg : Config) {engine : Engine} {id : UInt64} {view : TextView}
    (seen : engine.view id = some view) {post : Post} (different : post.id ≠ id) :
    (((engine.setPostRecord post).setRowTitle post).renderAndSave cfg post).view id =
        some view ∧
      ((engine.setRowTitle post).renderAndSave cfg post).view id = some view ∧
      (((engine.setPostRecord post).setRowDeletion post).renderAndSave cfg post).view id =
        some view := by
  have recorded : (engine.setPostRecord post).view id = some view :=
    (view_setPostRecord_of_ne engine different).trans seen
  have titled : ∀ {engine : Engine}, engine.view id = some view →
      (engine.setRowTitle post).view id = some view := fun known =>
    (view_updatePost_row _ _ _ _ (fun same => absurd same different)).trans known
  have deleted : ∀ {engine : Engine}, engine.view id = some view →
      (engine.setRowDeletion post).view id = some view := by
    intro engine known
    unfold setRowDeletion
    split
    · exact (view_updatePost_row _ _ _ _ (fun same => absurd same different)).trans known
    · exact known
  have notThis : post.id = id → ∀ engine : Engine, engine.fills cfg id = false :=
    fun same => absurd same different
  exact ⟨view_renderAndSave_of_still cfg (titled recorded) post (fun same => notThis same _),
    view_renderAndSave_of_still cfg (titled seen) post (fun same => notThis same _),
    view_renderAndSave_of_still cfg (deleted recorded) post (fun same => notThis same _)⟩

section

variable {cfg : Config} {engine reader : Engine} {id postID : UInt64} {view : TextView}
  {post : Post} (seen : engine.view id = some view) (same : postID = id)
  (read : engine.getPost cfg postID = (reader, .ok post))

include seen same read

theorem getPost_view_modified : post.modified = view.modified := by
  obtain ⟨found, readFound, _id, _title, _content, time⟩ := getPost_of_view cfg seen
  rw [← same, read] at readFound
  cases readFound
  exact time

theorem getPost_view_content : post.content = view.content := by
  obtain ⟨found, readFound, _id, _title, content, _time⟩ := getPost_of_view cfg seen
  rw [← same, read] at readFound
  cases readFound
  exact content

end

section

variable (cfg : Config) {engine : Engine} {id : UInt64} {view : TextView}
  (seen : engine.view id = some view)

include cfg seen

theorem follows_editsPost {α : Type} {now : Int64} {postID : UInt64} {make : Post → Post}
    {write : Engine → Post → Engine} {revisionOf : α → UInt32} {outcome : Outcome α}
    (edits : EditsPost cfg engine now postID make write revisionOf outcome)
    (made : ∀ post, (make post).id = post.id ∧ (make post).modified = editTime now post.modified)
    (notMax : postID = id → view.modified ≠ Int64.maxValue)
    (elsewhere : ∀ (before : Engine) (post : Post), post.id ≠ id → before.view id = some view →
      ((write before post).renderAndSave cfg post).view id = some view)
    (here : ∀ (before : Engine) (post : Post), (make post).id = id → post.content = view.content →
      before.view id = some view → view.modified < (make post).modified →
        ∃ new, ((write before (make post)).renderAndSave cfg (make post)).view id = some new ∧
          view.Follows new) :
    ∃ new, outcome.1.view id = some new ∧ view.Follows new := by
  have kept := view_getPost cfg seen postID
  cases edits with
  | leaves result nothing => exact ⟨view, kept, .refl view⟩
  | archives reader post editor action reason value read isRevision =>
      rw [read] at kept
      have sameID := (made post).1.trans (getPost_id read)
      by_cases same : postID = id
      · refine here _ post (sameID.trans same) (getPost_view_content seen same read) kept ?_
        have timeEq := getPost_view_modified seen same read
        rw [(made post).2, ← timeEq]
        exact editTime_gt (timeEq ▸ notMax same)
      · refine ⟨view, elsewhere _ _ ?_ kept, .refl view⟩
        rw [sameID]
        exact same

theorem view_retitled (positive : 0 < view.modified) {post : Post} (same : post.id = id)
    (later : view.modified < post.modified) :
    ∃ new, ((engine.setRowTitle post).renderAndSave cfg post).view id = some new ∧
      view.modified < new.modified := by
  have titled := view_setRowTitle seen same (lt_trans positive later)
  obtain ⟨content, rendered, _kept⟩ := view_renderAndSave cfg titled same
  exact ⟨_, rendered, later⟩

theorem follows_updatePost (positive : 0 < view.modified) (now : Int64)
    (edit : PostEdit) (notMax : edit.postID = id → view.modified ≠ Int64.maxValue) :
    ∃ new, (engine.updatePost cfg now edit).1.view id = some new ∧ view.Follows new := by
  refine follows_editsPost cfg seen (editsPost_updatePost cfg engine now edit)
    (fun _ => ⟨rfl, rfl⟩) notMax (fun _ _ other known => (view_edit_of_ne cfg known other).1) ?_
  intro before post same _content known later
  have recorded := view_setPostRecord known same
  obtain ⟨new, rendered, newer⟩ := view_retitled cfg recorded positive same later
  exact ⟨new, rendered, .of_lt newer⟩

theorem follows_updatePostTitle (positive : 0 < view.modified)
    (now : Int64) (postID : UInt64) (newTitle editorName : Bytes) (editorID : PersonID)
    (notMax : postID = id → view.modified ≠ Int64.maxValue) :
    ∃ new, (engine.updatePostTitle cfg now postID newTitle editorName editorID).1.view id =
      some new ∧ view.Follows new := by
  refine follows_editsPost cfg seen
    (editsPost_updatePostTitle cfg engine now postID newTitle editorName editorID)
    (fun _ => ⟨rfl, rfl⟩) notMax (fun _ _ other known => (view_edit_of_ne cfg known other).2.1) ?_
  intro before post same _content known later
  obtain ⟨new, rendered, newer⟩ := view_retitled cfg known positive same later
  exact ⟨new, rendered, .of_lt newer⟩

theorem readsDeleted_setPostRecord {post : Post} (same : post.id = id)
    (isDown : post.deletion.deletedOrRemoved = true) :
    (engine.setPostRecord post).ReadsDeleted cfg id := by
  obtain ⟨row, found, _rest⟩ := view_eq_some_iff.mp seen
  have record : (engine.setPostRecord post).postsDB.get? (encodePostKey id) =
      some (encodeRFC822Post post) := by
    unfold setPostRecord
    rw [same, OrderedMap.get?_set_self]
  refine ⟨_, getPost_of_record found record, ?_⟩
  rw [withRecord_eq]
  dsimp only
  split
  · assumption
  · rw [decodeRFC822Post_encodeRFC822Post, deletionFromRFC822_postHeaders]
    exact isDown

theorem follows_deletePost (positive : 0 < view.modified) (now : Int64)
    (postID : UInt64) (deleterName : Bytes) (deleterID : PersonID) (reason : Bytes)
    (notMax : postID = id → view.modified ≠ Int64.maxValue) :
    ∃ new, (engine.deletePost cfg now postID deleterName deleterID reason).1.view id =
      some new ∧ view.Follows new := by
  refine follows_editsPost cfg seen
    (editsPost_deletePost cfg engine now postID deleterName deleterID reason)
    (fun _ => ⟨rfl, rfl⟩) notMax
    (fun _ _ other known => (view_edit_of_ne cfg known other).2.2) ?_
  intro before post same content known later
  have isDown : (deletedPost now deleterName deleterID reason post).deletion.deletedOrRemoved =
      true := Deletion.delete_deletedOrRemoved _ _ _ _ _ _
  have contentEq : (deletedPost now deleterName deleterID reason post).content = view.content :=
    content
  generalize deletedPost now deleterName deleterID reason post = edited at *
  have recorded := view_setPostRecord known same
  rw [contentEq] at recorded
  by_cases bound : bindable edited.deletion.modPersonID = true
  · have deleted := view_setRowDeletion recorded same (lt_trans positive later)
    rw [if_pos bound] at deleted
    obtain ⟨content, rendered, _kept⟩ := view_renderAndSave cfg deleted same
    exact ⟨_, rendered, .of_lt later⟩
  · have unchanged : (before.setPostRecord edited).setRowDeletion edited =
        before.setPostRecord edited := by
      unfold setRowDeletion
      rw [if_neg bound]
    rw [unchanged]
    obtain ⟨content, rendered, stays⟩ := view_renderAndSave cfg recorded same
    refine ⟨_, rendered, ?_⟩
    rw [stays (Or.inr (readsDeleted_setPostRecord cfg known same isDown))]
    exact .refl view

theorem follows_undeletePost (positive : 0 < view.modified) (now : Int64)
    (postID : UInt64)
    (later : postID = id → view.modified ≤ now ∧ engine.fills cfg id = false) :
    ∃ new, (engine.undeletePost cfg now postID).1.view id = some new ∧ view.Follows new := by
  unfold undeletePost
  cases read : engine.getPost cfg postID with
  | mk reader result =>
      have kept := view_getPost cfg seen postID
      rw [read] at kept
      cases result with
      | error failure => exact ⟨view, kept, .refl view⟩
      | ok post =>
          have sameID := getPost_id read
          dsimp only
          split
          · generalize editing : ({ post with
              deletion := Deletion.restore, modified := now } : Post) = edited
            have editedID : edited.id = postID := by
              rw [← editing]
              exact sameID
            by_cases same : postID = id
            · obtain ⟨notBefore, still⟩ := later same
              have contentRead := getPost_view_content seen same read
              have contentEq : edited.content = view.content := by
                rw [← editing]
                exact contentRead
              have readerSame : reader = engine := by
                obtain ⟨found, readFound, _rest⟩ := getPost_of_view cfg seen
                rw [← same, read] at readFound
                cases readFound
                rfl
              subst readerSame
              have timeEq : edited.modified = now := by rw [← editing]
              have bound : bindable edited.deletion.modPersonID = true := by
                rw [← editing]
                rfl
              have recorded := view_setPostRecord kept (editedID.trans same)
              have restored := view_setRowDeletion recorded (editedID.trans same)
                (by rw [timeEq]; exact lt_of_lt_of_le positive notBefore)
              rw [if_pos bound, contentEq, timeEq] at restored
              refine ⟨{ view with modified := now }, ?_, notBefore, ?_⟩
              · refine view_renderAndSave_of_still cfg restored edited (fun _ => ?_)
                rw [← still]
                obtain ⟨row, found, _titleEq, _timeEq, record⟩ := view_eq_some_iff.mp kept
                refine fills_congr cfg ?_ ?_ ?_
                · unfold setRowDeletion
                  rw [if_pos bound]
                  rfl
                · obtain ⟨_row, _found, _titleEq, _timeEq, restoredRecord⟩ :=
                    view_eq_some_iff.mp restored
                  rw [restoredRecord, record]
                · unfold setRowDeletion
                  rw [if_pos bound, editedID, same]
                  simp only [MetaDB.updatePost, setPostRecord, OrderedMap.get?_modify_self,
                    found, Option.map_some]
              · intro unchanged
                change now = view.modified at unchanged
                rw [unchanged]
            · have different : edited.id ≠ id := by
                rw [editedID]
                exact same
              exact ⟨view, (view_edit_of_ne cfg kept different).2.2, .refl view⟩
          · exact ⟨view, kept, .refl view⟩

theorem follows_updateComment (positive : 0 < view.modified) (now : Int64)
    (postID : UInt64) (sequence : UInt32) (newContent editorName : Bytes) (editorID : PersonID)
    (later : postID = id → view.modified ≤ now ∧ engine.fills cfg id = false) :
    ∃ new, (engine.updateComment cfg now postID sequence newContent editorName editorID).1.view
      id = some new ∧ view.Follows new := by
  unfold updateComment
  split
  · exact ⟨view, seen, .refl view⟩
  · dsimp only
    split
    · exact ⟨view, seen, .refl view⟩
    · generalize writing : setCommentRecord (setCommentRevision engine _) _ = written
      have writtenView : written.view id = some view := by
        rw [← writing]
        exact seen
      have stillFills : written.fills cfg id = engine.fills cfg id := by
        rw [← writing]
        rfl
      have touched := view_touchPost cfg writtenView now postID (fun same =>
        ⟨lt_of_lt_of_le positive (later same).1, stillFills.trans (later same).2⟩)
      refine ⟨_, touched, ?_, ?_⟩
      · dsimp only
        split
        · exact (later (by assumption)).1
        · exact le_refl _
      · intro unchanged
        dsimp only at unchanged ⊢
        rw [unchanged]

theorem view_deleteComment (now : Int64) (postID : UInt64) (sequence : UInt32)
    (deleterName : Bytes) (deleterID : PersonID) (reason : Bytes)
    (still : postID = id → engine.fills cfg id = false) :
    (engine.deleteComment cfg now postID sequence deleterName deleterID reason).1.view id =
      some view := by
  unfold deleteComment
  split
  · exact seen
  · dsimp only
    split
    · exact seen
    · refine view_rerenderPost cfg ?_ postID ?_
      · exact seen
      · exact still

theorem view_undeleteComment (postID : UInt64) (sequence : UInt32)
    (still : postID = id → engine.fills cfg id = false) :
    (engine.undeleteComment cfg postID sequence).1.view id = some view := by
  unfold undeleteComment
  split
  · exact seen
  · split
    · refine view_rerenderPost cfg ?_ postID ?_
      · exact seen
      · exact still
    · exact seen

end

/-! ### Creating -/

theorem view_putPost {engine : Engine} {id other : UInt64} {view : TextView} (row : PostRow)
    (seen : engine.view id = some view) (free : engine.metaDB.posts.get? other = none) :
    other ≠ id ∧ { engine with metaDB := engine.metaDB.putPost other row }.view id =
      some view := by
  obtain ⟨stored, found, titleEq, timeEq, contentEq⟩ := view_eq_some_iff.mp seen
  have different : other ≠ id := by
    rintro rfl
    rw [free] at found
    cases found
  refine ⟨different, view_eq_some_iff.mpr ⟨stored, ?_, titleEq, timeEq, contentEq⟩⟩
  exact (MetaDB.get?_putPost_of_ne _ _ (Ne.symm different)).trans found

section

variable (cfg : Config) {engine : Engine} {id : UInt64} {view : TextView}
  (seen : engine.view id = some view)

include cfg seen

theorem view_insertNewPost (post : Post) :
    (engine.insertNewPost cfg post).1.view id = some view := by
  obtain ⟨counter, counted⟩ := candidateID_frame cfg engine post
  unfold insertNewPost
  dsimp only
  rw [counted]
  cases inserted : engine.metaDB.insertPost (engine.candidateID cfg post).2
      (createdRow post) with
  | error failure => exact seen
  | ok result =>
      obtain ⟨afterEq, _choice, free, _rest⟩ := MetaDB.insertPost_ok inserted
      obtain ⟨different, put⟩ := view_putPost (createdRow post) seen free
      dsimp only
      rw [afterEq]
      generalize naming : ({ post with id := result.2 } : Post) = named
      have namedID : named.id ≠ id := by
        rw [← naming]
        exact different
      rw [view_of_frame (writePostCache_frame named.id cfg _ named) namedID,
        view_of_frame (renderAndSave_frame cfg _ named) namedID,
        view_setPostRecord_of_ne _ namedID]
      exact put

theorem view_createPost (now : Int64) (post : Post)
    (same : engine.existingPost (preparePost now post) = some id →
      engine.recordContent id = some post.content)
    (still : post.parentID = id → engine.fills cfg id = false) :
    (engine.createPost cfg now post).1.view id = some view := by
  unfold createPost
  dsimp only
  split
  · exact view_addComment cfg seen now _ still
  · split
    · rename_i existing found
      by_cases this : existing = id
      · subst this
        have contentEq := same found
        obtain ⟨_row, _found, _title, _time, record⟩ := view_eq_some_iff.mp seen
        rw [record] at contentEq
        have sameContent : view.content = post.content := Option.some.inj contentEq
        have recorded := view_setPostRecord seen
          (show ({ preparePost now post with id := existing } : Post).id = existing from rfl)
        have unchanged : { view with content := (preparePost now post).content } = view := by
          change { view with content := post.content } = view
          rw [← sameContent]
        exact recorded.trans (congrArg some unchanged)
      · exact (view_setPostRecord_of_ne engine this).trans seen
    · exact view_insertNewPost cfg seen _

theorem view_setPostContent (postID : UInt64) (content : Bytes)
    (same : postID = id → engine.recordContent id = some content) :
    (engine.setPostContent cfg postID content).1.view id = some view := by
  by_cases this : postID = id
  · subst this
    obtain ⟨post, read, sameID, _rest⟩ := getPost_of_view cfg seen
    obtain ⟨_row, _found, _title, _time, record⟩ := view_eq_some_iff.mp seen
    have contentEq : view.content = content := by
      have given := same rfl
      rw [record] at given
      exact Option.some.inj given
    unfold setPostContent
    rw [read]
    have recorded := view_setPostRecord seen
      (show ({ post with content := content } : Post).id = postID from sameID)
    have unchanged : { view with content := content } = view := by rw [← contentEq]
    exact recorded.trans (congrArg some unchanged)
  · rw [view_of_frame (setPostContent_frame cfg engine postID content) this]
    exact seen

end

theorem view_rewritePost (cfg : Config) {engine reader : Engine} {id postID : UInt64}
    {view : TextView} (seen : engine.view id = some view) {post edited : Post}
    (read : engine.getPost cfg postID = (reader, .ok post)) (sameID : edited.id = post.id)
    (sameContent : edited.content = post.content) {other : Engine}
    (otherView : other.view id = some view) :
    (other.setPostRecord edited).view id = some view := by
  have readID := getPost_id read
  by_cases this : postID = id
  · have contentEq := getPost_view_content seen this read
    have recorded := view_setPostRecord otherView (sameID.trans (readID.trans this))
    have unchanged : { view with content := edited.content } = view := by
      rw [sameContent, contentEq]
    exact recorded.trans (congrArg some unchanged)
  · have different : edited.id ≠ id := by
      rw [sameID, readID]
      exact this
    exact (view_setPostRecord_of_ne other different).trans otherView

theorem view_setPostMeta (cfg : Config) {engine : Engine} {id : UInt64} {view : TextView}
    (seen : engine.view id = some view) (community postFile : Bytes) (filemode money : Int64) :
    (engine.setPostMeta cfg community postFile filemode money).1.view id = some view := by
  unfold setPostMeta
  split
  · exact seen
  · rename_i found _isFound
    dsimp only
    generalize updating : ({ engine with
      metaDB := engine.metaDB.updatePost found (fun row =>
        { row with filemode := filemode, money := money }) } : Engine) = updated
    have updatedView : updated.view id = some view := by
      rw [← updating]
      refine (view_updatePost_row engine id found _ ?_).trans seen
      intro _same row
      rfl
    cases read : updated.getPost cfg found with
    | mk reader result =>
        have kept := view_getPost cfg updatedView found
        rw [read] at kept
        cases result with
        | error failure => exact kept
        | ok post => exact view_rewritePost cfg updatedView read rfl rfl kept

theorem view_addCrosspost (cfg : Config) {engine : Engine} {id : UInt64} {view : TextView}
    (seen : engine.view id = some view) (now : Int64) (call : CrosspostCall) :
    (engine.after cfg (.addCrosspost now call)).view id = some view := by
  unfold after step
  simp only [Outcome.reply_fst]
  unfold addCrosspost
  cases read : engine.getPostByCommunityFile cfg call.srcCommunity call.srcPostFile with
  | mk reader result =>
      unfold getPostByCommunityFile at read
      cases found : engine.metaDB.findFile call.srcCommunity call.srcPostFile with
      | none =>
          rw [found] at read
          cases read
          exact seen
      | some source =>
          rw [found] at read
          dsimp only at read
          have kept := view_getPost cfg seen source
          rw [read] at kept
          cases result with
          | error failure => exact kept
          | ok post =>
              dsimp only
              split
              · exact kept
              · rename_i inserted insertion
                obtain ⟨_next, afterEq, _bound⟩ := MetaDB.insertCrosspost_ok insertion
                refine view_rewritePost cfg seen read rfl rfl ?_
                apply view_congr _ _ |>.trans kept
                · rw [afterEq]
                  simp only [setCrosspostRecord, MetaDB.updatePost]
                  rw [OrderedMap.get?_modify]
                  split
                  · rename_i this
                    rw [this, Option.map_map]
                    rfl
                  · rfl
                · apply recordContent_congr
                  exact OrderedMap.get?_set_of_ne _ _
                    (Ne.symm (encodeCrosspostKey_ne_encodePostKey _ _ _))

/-! ### Counters and purges -/

theorem view_flushDirtyDeltas (engine : Engine) (id : UInt64) :
    engine.flushDirtyDeltas.view id = engine.view id := by
  apply view_congr
  · simp only [flushDirtyDeltas]
    rw [OrderedMap.get?_mapValues, Option.map_map]
    rfl
  · rfl

theorem view_resetVotes (engine : Engine) (postID id : UInt64) :
    (engine.resetVotes postID).view id = engine.view id := by
  unfold resetVotes
  exact view_updatePost_row engine id postID
    (fun row => { row with upvotes := 0, downvotes := 0 }) (fun _ _ => rfl)

theorem view_votePost (engine : Engine) (now : Int64) (postID : UInt64) (personName : Bytes)
    (personID : PersonID) (newVote : VoteType) (createdAt : Int64) (ip : Bytes) (id : UInt64) :
    (engine.votePost now postID personName personID newVote createdAt ip).1.view id =
      engine.view id := by
  unfold votePost
  dsimp only
  split
  · rfl
  · unfold writeVote
    split <;> rfl

theorem view_purgeUserPosts {engine : Engine} {id : UInt64} {view : TextView} {row : PostRow}
    (seen : engine.view id = some view) (stored : engine.metaDB.posts.get? id = some row)
    (author : Bytes) (minTimestamp : Int64)
    (spared : ¬ (row.creatorName = author ∧ minTimestamp ≤ row.createdAt)) :
    (engine.purgeUserPosts author minTimestamp).1.view id = some view := by
  have notTarget : id ∉ (engine.metaDB.posts.entries.filter (fun entry =>
      entry.2.creatorName = author && minTimestamp ≤ entry.2.createdAt)).map Prod.fst := by
    intro target
    obtain ⟨entry, member, sameID⟩ := List.mem_map.mp target
    obtain ⟨inRows, matched⟩ := List.mem_filter.mp member
    have found : engine.metaDB.posts.get? id = some entry.2 := by
      rw [← sameID]
      exact (OrderedMap.get?_eq_some_iff _).mpr inRows
    rw [stored] at found
    cases found
    simp only [Bool.and_eq_true, decide_eq_true_eq] at matched
    exact spared matched
  unfold purgeUserPosts
  dsimp only
  generalize (engine.metaDB.posts.entries.filter (fun entry =>
      entry.2.creatorName = author && minTimestamp ≤ entry.2.createdAt)).map Prod.fst = targets
    at notTarget
  refine (view_congr ?_ ?_).trans seen
  · dsimp only
    rw [OrderedMap.get?_deleteAll, if_neg notTarget]
  · apply recordContent_congr
    dsimp only
    generalize engine.postsDB = postsDB
    induction targets generalizing postsDB with
    | nil => rfl
    | cons target rest ih =>
        rw [List.mem_cons, not_or] at notTarget
        rw [List.foldl_cons, ih notTarget.2]
        exact OrderedMap.get?_modify_of_ne _ _ (fun same =>
          notTarget.1 (encodePostKey_inj.mp same))

theorem view_purgeRecords (engine : Engine) {id other : UInt64} (different : other ≠ id) :
    (engine.purgeRecords other).view id = engine.view id := by
  apply view_congr
  · rfl
  · apply recordContent_congr
    unfold purgeRecords
    dsimp only
    rw [OrderedMap.get?_deleteAll, if_neg]
    intro purged
    unfold purgedPostKeys at purged
    rcases List.mem_cons.mp purged with same | crosspost
    · exact different (encodePostKey_inj.mp same).symm
    · obtain ⟨entry, member, keyEq⟩ := List.mem_map.mp crosspost
      obtain ⟨_stored, suffix, split, _low⟩ := (mem_scanPrefix _ _ _).mp member
      rw [split] at keyEq
      have heads := congrArg List.head? keyEq
      exact absurd heads (by simp [encodeCrosspostPrefix, encodePostKey, letterX, letterP])

theorem view_purgePost (cfg : Config) {engine : Engine} {id : UInt64} {view : TextView}
    (seen : engine.view id = some view) (postID : UInt64) (different : postID ≠ id) :
    (engine.purgePost cfg postID).1.view id = some view := by
  unfold purgePost
  cases read : engine.getPost cfg postID with
  | mk reader result =>
      have kept := view_getPost cfg seen postID
      rw [read] at kept
      cases result with
      | error failure => exact kept
      | ok post =>
          have sameID := getPost_id read
          have otherID : post.id ≠ id := by
            rw [sameID]
            exact different
          unfold purgePostRecord removeCacheFile
          dsimp only
          have rows : (({ reader.flushDirtyDeltas with
              metaDB := purgePostRows reader.flushDirtyDeltas.metaDB post } :
                Engine).purgeRecords post.id).view id = some view := by
            rw [view_purgeRecords _ otherID, ← kept, ← view_flushDirtyDeltas reader id]
            apply view_congr
            · unfold purgePostRows
              rw [OrderedMap.get?_delete_of_ne _ (Ne.symm otherID)]
            · rfl
          split
          · exact rows
          · split
            · exact rows
            · exact rows

theorem view_deleteCommunity {engine : Engine} {id : UInt64} {view : TextView} {row : PostRow}
    (seen : engine.view id = some view) (stored : engine.metaDB.posts.get? id = some row)
    (community : Bytes) (spared : row.community ≠ community) :
    (engine.deleteCommunity community).1.view id = some view := by
  unfold deleteCommunity
  split
  · exact seen
  · dsimp only
    have flushed : engine.flushDirtyDeltas.metaDB.posts.get? id =
        some (applyDelta ((engine.dirtyDeltas.get? id).getD {}) row) := by
      simp only [flushDirtyDeltas, OrderedMap.get?_mapValues, stored, Option.map_some]
    have notIn : id ∉ communityPosts engine.flushDirtyDeltas.metaDB community := by
      intro inside
      obtain ⟨entry, member, sameID⟩ := List.mem_map.mp inside
      obtain ⟨inRows, matched⟩ := List.mem_filter.mp member
      have found : engine.flushDirtyDeltas.metaDB.posts.get? id = some entry.2 := by
        rw [← sameID]
        exact (OrderedMap.get?_eq_some_iff _).mpr inRows
      rw [flushed] at found
      have named := of_decide_eq_true matched
      rw [← Option.some.inj found] at named
      exact spared named
    have rows : ({ engine.flushDirtyDeltas with
        metaDB := deleteCommunityRows engine.flushDirtyDeltas.metaDB community } :
          Engine).view id = some view := by
      rw [← seen, ← view_flushDirtyDeltas engine id]
      apply view_congr
      · unfold deleteCommunityRows
        rw [OrderedMap.get?_keep, flushed, Option.filter_some]
        have kept : decide ((applyDelta ((engine.dirtyDeltas.get? id).getD {}) row).community ≠
            community) = true := decide_eq_true spared
        rw [kept]
        rfl
      · rfl
    generalize ({ engine.flushDirtyDeltas with
        metaDB := deleteCommunityRows engine.flushDirtyDeltas.metaDB community } :
          Engine) = emptied at rows
    generalize communityPosts engine.flushDirtyDeltas.metaDB community = posts at notIn
    induction posts generalizing emptied with
    | nil => exact rows
    | cons first rest ih =>
        rw [List.mem_cons, not_or] at notIn
        exact ih (emptied.purgeRecords first)
          ((view_purgeRecords emptied (Ne.symm notIn.1)).trans rows) notIn.2

/-! ### Import and rebuild -/

theorem importPosts_spares (cfg : Config) {id : UInt64} {row : PostRow}
    (batch : List ImportedPostData) {engine : Engine}
    (stored : engine.metaDB.posts.get? id = some row)
    (spared : ∀ item ∈ batch, ¬ (item.post.community = row.community ∧
      item.post.postFile = row.postFile)) {after : Engine}
    {imported : List (UInt64 × ImportedPostData)}
    (done : engine.importPosts cfg batch = (after, .ok imported)) :
    after.metaDB.posts.get? id = engine.metaDB.posts.get? id ∧
      after.postsDB.get? (encodePostKey id) = engine.postsDB.get? (encodePostKey id) := by
  induction batch generalizing engine imported with
  | nil =>
      cases done
      exact ⟨rfl, rfl⟩
  | cons item rest ih =>
      unfold importPosts at done
      cases first : engine.importPost cfg item with
      | mk between result =>
          rw [first] at done
          cases result with
          | error failure => cases done
          | ok newID =>
              dsimp only at done
              cases later : between.importPosts cfg rest with
              | mk final finalResult =>
                  rw [later] at done
                  cases finalResult with
                  | error failure => cases done
                  | ok others =>
                      cases done
                      obtain ⟨origin, rows, records⟩ := importPost_rows first
                      have different : id ≠ newID := by
                        rintro rfl
                        rcases origin with ⟨found, storedFound, names⟩ | free
                        · rw [stored] at storedFound
                          cases storedFound
                          exact spared item (List.mem_cons_self) ⟨names.1.symm, names.2.symm⟩
                        · rw [stored] at free
                          cases free
                      have sameRow := rows id different
                      have sameRecord := records id different
                      have tail := ih (sameRow.trans stored)
                        (fun other member => spared other (List.mem_cons_of_mem _ member)) later
                      exact ⟨tail.1.trans sameRow, tail.2.trans sameRecord⟩

theorem view_importPostBatch (cfg : Config) {engine : Engine} {id : UInt64} {view : TextView}
    {row : PostRow} (seen : engine.view id = some view)
    (stored : engine.metaDB.posts.get? id = some row) (batch : List ImportedPostData)
    (spared : ∀ item ∈ batch, ¬ (item.post.community = row.community ∧
      item.post.postFile = row.postFile)) :
    (engine.importPostBatch cfg batch).1.view id = some view := by
  unfold importPostBatch
  cases done : engine.importPosts cfg batch with
  | mk after result =>
      cases result with
      | error failure => exact seen
      | ok imported =>
          obtain ⟨sameRow, sameRecord⟩ := importPosts_spares cfg batch stored spared done
          refine (view_congr ?_ (recordContent_congr sameRecord)).trans seen
          rw [sameRow]

theorem follows_rebuild {engine : Engine} {id : UInt64} {view : TextView} {row : PostRow}
    (seen : engine.view id = some view) (positive : 0 < view.modified)
    (stored : engine.metaDB.posts.get? id = some row)
    (agrees : ∀ value, engine.postsDB.get? (encodePostKey id) = some value →
      (rebuiltRow (decodeRFC822Post value).1).title = row.title ∧
        row.shownModified ≤ (rebuiltRow (decodeRFC822Post value).1).modified) :
    ∃ new, engine.rebuildSQLiteFromPebble.1.view id = some new ∧ view.Follows new := by
  obtain ⟨found, storedFound, titleEq, timeEq, contentEq⟩ := view_eq_some_iff.mp seen
  rw [stored] at storedFound
  cases storedFound
  rcases rebuild_cases engine with ⟨failure, failed⟩ | ⟨metaDB, counts, rebuilt⟩
  · rw [failed]
    exact ⟨view, seen, .refl view⟩
  · obtain ⟨value, record, decoded⟩ := Option.map_eq_some_iff.mp contentEq
    obtain ⟨sameTitle, notBefore⟩ := agrees value record
    have newRow := rebuild_posts rebuilt id
    rw [record, Option.map_some] at newRow
    generalize restoring : rebuiltRow (decodeRFC822Post value).1 = restored
      at newRow sameTitle notBefore
    have title : (engine.recount id restored).title = restored.title := by
      unfold recount
      split <;> rfl
    have time : restored.modified ≤ (engine.recount id restored).modified := by
      unfold recount
      split
      · exact le_max_left _ _
      · exact le_refl _
    have later : view.modified ≤ (engine.recount id restored).modified := by
      rw [← timeEq]
      exact le_trans notBefore time
    have shown : (engine.recount id restored).shownModified =
        (engine.recount id restored).modified :=
      if_neg (ne_of_gt (lt_of_lt_of_le positive later))
    rw [rebuilt]
    refine ⟨⟨view.title, view.content, (engine.recount id restored).modified⟩,
      view_eq_some_iff.mpr ⟨_, newRow, ?_, shown, contentEq⟩, later, ?_⟩
    · rw [title, sameTitle, titleEq]
    · intro same
      dsimp only at same ⊢
      rw [same]

/-! ### Steps and runs -/

theorem follows_step (cfg : Config) {engine : Engine} {id : UInt64} {view : TextView}
    (seen : engine.view id = some view) (positive : 0 < view.modified) (op : Op)
    (keeps : engine.KeepsToken cfg id op) :
    ∃ new, (engine.after cfg op).view id = some new ∧ view.Follows new := by
  have same : ∀ {after : Engine}, after.view id = some view →
      ∃ new, after.view id = some new ∧ view.Follows new :=
    fun kept => ⟨view, kept, .refl view⟩
  obtain ⟨row, stored, _titleEq, timeEq, _contentEq⟩ := view_eq_some_iff.mp seen
  have rule := keeps row stored
  have notMax : row.shownModified ≠ Int64.maxValue → view.modified ≠ Int64.maxValue := by
    rw [timeEq]
    exact fun known => known
  cases op with
  | createPost now post => exact same (view_createPost cfg seen now post rule.1 rule.2)
  | getPost postID => exact same (view_getPost cfg seen postID)
  | getPostByCommunityFile community postFile =>
      unfold after step
      simp only [Outcome.reply_fst, getPostByCommunityFile]
      split
      · exact same seen
      · exact same (view_getPost cfg seen _)
  | setPostContent postID content => exact same (view_setPostContent cfg seen postID content rule)
  | setPostMeta community postFile filemode money =>
      exact same (view_setPostMeta cfg seen community postFile filemode money)
  | renderFullPostText postID asBig5 =>
      by_cases this : postID = id
      · obtain ⟨content, rendered, kept⟩ := view_renderFullPostText cfg seen asBig5
        rw [kept (Or.inl (rule this))] at rendered
        rw [this]
        exact same rendered
      · exact same ((view_of_frame (renderFullPostText_frame cfg engine postID asBig5)
          this).trans seen)
  | updatePost now edit =>
      exact follows_updatePost cfg seen positive now edit (fun this => notMax (rule this))
  | updatePostTitle now postID newTitle editorName editorID =>
      exact follows_updatePostTitle cfg seen positive now postID newTitle editorName editorID
        (fun this => notMax (rule this))
  | deletePost now postID deleterName deleterID reason =>
      exact follows_deletePost cfg seen positive now postID deleterName deleterID reason
        (fun this => notMax (rule this))
  | undeletePost now postID =>
      exact follows_undeletePost cfg seen positive now postID
        (fun this => ⟨timeEq ▸ (rule this).1, (rule this).2⟩)
  | addComment now comment => exact same (view_addComment cfg seen now comment rule)
  | updateComment now postID sequence newContent editorName editorID =>
      exact follows_updateComment cfg seen positive now postID sequence newContent editorName
        editorID (fun this => ⟨timeEq ▸ (rule this).1, (rule this).2⟩)
  | deleteComment now postID sequence deleterName deleterID reason =>
      exact same (view_deleteComment cfg seen now postID sequence deleterName deleterID reason
        rule)
  | undeleteComment postID sequence =>
      exact same (view_undeleteComment cfg seen postID sequence rule)
  | votePost now postID personName personID newVote createdAt ip =>
      exact same ((view_votePost engine now postID personName personID newVote createdAt ip
        id).trans seen)
  | resetVotes postID => exact same ((view_resetVotes engine postID id).trans seen)
  | addCrosspost now call => exact same (view_addCrosspost cfg seen now call)
  | purgeUserComments author minTimestamp => exact same seen
  | purgeUserPosts author minTimestamp =>
      exact same (view_purgeUserPosts seen stored author minTimestamp rule)
  | purgePost postID => exact same (view_purgePost cfg seen postID rule)
  | deleteCommunity community => exact same (view_deleteCommunity seen stored community rule)
  | importPostBatch batch => exact same (view_importPostBatch cfg seen stored batch rule)
  | flushDirtyDeltas => exact same ((view_flushDirtyDeltas engine id).trans seen)
  | rebuildSQLiteFromPebble => exact follows_rebuild seen positive stored rule
  | restart => exact same ((view_flushDirtyDeltas engine id).trans seen)

theorem follows_run (cfg : Config) {id : UInt64} {ops : List Op} {engine : Engine}
    {view : TextView} (seen : engine.view id = some view) (positive : 0 < view.modified)
    (keeps : StepsMeet (after cfg) (KeepsToken cfg id) engine ops) :
    ∃ new, (engine.runOps cfg ops).view id = some new ∧ view.Follows new := by
  induction ops generalizing engine view with
  | nil => exact ⟨view, seen, .refl view⟩
  | cons op rest ih =>
      obtain ⟨next, nextSeen, here⟩ := follows_step cfg seen positive op keeps.1
      obtain ⟨final, finalSeen, later⟩ :=
        ih nextSeen (lt_of_lt_of_le positive here.1) keeps.2
      exact ⟨final, finalSeen, here.trans later⟩

/-- An edit that is not refused finds the post as it was read, and so did every
operation in between. -/
theorem unchanged_of_not_conflict (cfg : Config) (engine reader : Engine) (id : UInt64)
    (post : Post) (ops : List Op) (now : Int64) (edit : PostEdit)
    (read : engine.getPost cfg id = (reader, .ok post)) (positive : 0 < post.modified)
    (keeps : StepsMeet (after cfg) (KeepsToken cfg id) reader ops)
    (same : edit.postID = id) (expected : edit.expectedModified = post.modified)
    (accepted : ∀ latest,
      ((reader.runOps cfg ops).updatePost cfg now edit).2 ≠ .error (.conflict latest)) :
    ∀ before rest, ops = before ++ rest →
      (reader.runOps cfg before).view id =
        some ⟨post.title, post.content, post.modified⟩ := by
  have seen : reader.view id = some ⟨post.title, post.content, post.modified⟩ := by
    have record := recordContent_getPost read
    have frame := getPost_frame cfg engine id
    rw [read] at frame
    obtain ⟨row, stored, found⟩ := getPost_ok read
    refine view_eq_some_iff.mpr ⟨row, by rw [frame.metaDB]; exact stored, ?_, ?_, record⟩
    · rcases found with ⟨value, _record, _same, rfl⟩ | ⟨_missing, rfl, _same⟩
      · rw [withRecord_eq]
        rfl
      · rfl
    · exact (getPost_modified read stored).symm
  intro before rest split
  subst split
  -- The view in the middle and the view at the end, each following the one before.
  obtain ⟨middle, middleSeen, early⟩ := follows_run cfg seen positive keeps.of_append
  have restKeeps : StepsMeet (after cfg) (KeepsToken cfg id) (reader.runOps cfg before) rest := by
    rw [stepsMeet_iff] at keeps ⊢
    intro front op back splitRest
    have whole := keeps (before ++ front) op back (by rw [splitRest]; simp)
    rw [run_append] at whole
    exact whole
  obtain ⟨final, finalSeen, late⟩ :=
    follows_run cfg middleSeen (lt_of_lt_of_le positive early.1) restKeeps
  have runSplit : reader.runOps cfg (before ++ rest) =
      (reader.runOps cfg before).runOps cfg rest := run_append _ _ _ _
  rw [← runSplit] at finalSeen
  obtain ⟨found, readFinal, _id, _title, _content, time⟩ := getPost_of_view cfg finalSeen
  have notNewer : final.modified = post.modified := by
    by_contra newer
    apply accepted found.modified
    have stale : edit.check found = .conflict := by
      unfold PostEdit.check
      rw [if_pos]
      simp only [Bool.and_eq_true, decide_eq_true_eq, expected, time]
      exact ⟨⟨positive, lt_of_lt_of_le positive (le_trans early.1 late.1)⟩, newer⟩
    unfold updatePost
    rw [same, readFinal]
    dsimp only
    rw [stale]
  have middleTime : middle.modified = post.modified :=
    le_antisymm (notNewer ▸ late.1) early.1
  rw [middleSeen, early.2 middleTime]

def staleEdit : PostEdit :=
  { postID := 1, newTitle := [], newContent := utf8 "mine\n", expectedModified := 100 }

def bobComment : Comment :=
  { postID := 1, creatorName := utf8 "bob", content := utf8 "push" }

theorem unchanged_after_comment :
    ((firstEngine 100).runOps {} [.addComment 101 bobComment]).view 1 =
      some ⟨firstRead.title, firstRead.content, firstRead.modified⟩ := by
  have accepted : (((firstEngine 100).runOps {} [.addComment 101 bobComment, .getPost 1]).updatePost
      {} 105 staleEdit).2 = .ok (1, 105) := by decide +kernel
  refine unchanged_of_not_conflict {} (firstEngine 100) (firstEngine 100) 1 firstRead
    [.addComment 101 bobComment, .getPost 1] 105 staleEdit (by decide +kernel) (by decide)
    ⟨?_, ?_, trivial⟩ rfl rfl ?_ [.addComment 101 bobComment] [.getPost 1] rfl
  · intro row _stored _same
    decide +kernel
  · intro row _stored
    trivial
  · intro latest
    rw [accepted]
    exact nofun

/-- Another edit in the same second moves the time to 101, and the edit of a
comment takes it back to 100. -/
theorem stale_edit_accepted :
    let between : List Op :=
      [.updatePost 100 { postID := 1, newTitle := [], newContent := utf8 "theirs\n" },
        .addComment 100 bobComment,
        .updateComment 100 1 1 (utf8 "pushed") [] 0]
    (firstEngine 100).getPost {} 1 = (firstEngine 100, .ok firstRead) ∧
      0 < firstRead.modified ∧ staleEdit.expectedModified = firstRead.modified ∧
      (((firstEngine 100).runOps {} between).updatePost {} 100 staleEdit).2 = .ok (2, 101) ∧
      ((firstEngine 100).runOps {} (between.take 1)).recordContent 1 = some (utf8 "theirs\n") ∧
      firstRead.content = utf8 "first\n" := by
  refine ⟨by decide +kernel, by decide, by decide, by decide +kernel, by decide +kernel, rfl⟩

end Engine

end Pttbbs.PostSvc
