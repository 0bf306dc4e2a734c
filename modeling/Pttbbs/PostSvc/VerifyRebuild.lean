/-
What a clean verification says about a rebuild.

A clean report means that rows and records have the same post numbers, that every
row is what the verifier makes of the records, and that no comment or vote belongs to
a missing post.  A rebuild makes the same of them except where the two read a record
differently.
-/

import Pttbbs.PostSvc.Verify

namespace Pttbbs.PostSvc

open Pttbbs.Lib

/-! ### Clean reports -/

namespace VerifyReport

theorem not_clean_error (report : VerifyReport) (found : VerifyError) :
    ¬ (report.error found).Clean := by
  rintro ⟨errors, _⟩
  exact absurd errors (by simp [error])

theorem not_clean_warn (report : VerifyReport) (kind : VerifyWarning) (postID : UInt64) :
    ¬ (report.warn kind postID).Clean := by
  rintro ⟨_, warnings⟩
  exact absurd warnings (by simp [warn])

theorem clean_diff_iff (report : VerifyReport) (kind : VerifyWarning) (postID : UInt64)
    (same : Bool) : (report.diff kind postID same).Clean ↔ report.Clean ∧ same = true := by
  unfold diff
  cases same with
  | true => simp
  | false => simp [not_clean_warn]

end VerifyReport

structure Compared (row : PostRow) (headers : Headers) (found : PostAggregate) : Prop where
  title : row.title = field headers "Title"
  modified : row.modified = verifiedModified headers found
  community : row.community = field headers "Community"
  postFile : row.postFile = field headers "PostFile"
  creatorName : row.creatorName = field headers "CreatorName"
  parentID : row.parentID = (parseInt64 (field headers "ParentID")).toUInt64
  creatorID : row.creatorID = parseUint64 (field headers "CreatorID")
  createdAt : row.createdAt = parseInt64 (field headers "CreatedAt")
  filemode : row.filemode = parseInt64 (field headers "Filemode")
  money : row.money = parseInt64 (field headers "Money")
  deletion : row.deletion = deletionFromRFC822 headers
  upvotes : row.upvotes = found.upvotes
  downvotes : row.downvotes = found.downvotes
  numComments : row.numComments = found.comments
  numCrossposts : row.numCrossposts = found.crossposts

theorem comparePost_clean {report : VerifyReport} {id : UInt64} {row : PostRow} {value : Bytes}
    {found : PostAggregate} (clean : (comparePost report id row value found).Clean) :
    report.Clean ∧ Compared row (decodeRFC822Post value).1 found := by
  unfold comparePost at clean
  simp only [VerifyReport.clean_diff_iff, Bool.and_eq_true, decide_eq_true_eq] at clean
  obtain ⟨⟨⟨⟨⟨first, identity⟩, filemode⟩, deletion⟩, counters⟩, crossposts⟩ := clean
  split at first
  · exact absurd first (VerifyReport.not_clean_warn _ _ _)
  · rename_i title
    rw [VerifyReport.clean_diff_iff, decide_eq_true_eq] at first
    obtain ⟨⟨⟨⟨⟨community, postFile⟩, creatorName⟩, parentID⟩, creatorID⟩, createdAt⟩ := identity
    exact ⟨first.1, {
      title := not_not.mp title
      modified := first.2
      community := community
      postFile := postFile
      creatorName := creatorName
      parentID := parentID
      creatorID := creatorID
      createdAt := createdAt
      filemode := filemode.1
      money := filemode.2
      deletion := deletion
      upvotes := counters.1.1
      downvotes := counters.1.2
      numComments := counters.2
      numCrossposts := crossposts }⟩

/-! ### What the cursors pass -/

def countedComment (id : UInt64) (entry : CursorEntry) : Bool :=
  entry.key.length = 13 && entry.postID = id

def changedAt (entry : CursorEntry) : Option Int64 :=
  (decodeRFC822Comment entry.postID (uint32 (entry.key.drop 9)) entry.value).map
    Comment.modifiedAt

def changesOf (id : UInt64) (entry : CursorEntry) : Option Int64 :=
  if countedComment id entry then changedAt entry else none

def countedVote (id : UInt64) (vote : VoteType) (entry : CursorEntry) : Bool :=
  entry.postID = id && voteOfValue entry.value = vote

def aggregateOf (id : UInt64) (cursors : Cursors) : PostAggregate where
  comments := cursors.comments.countP (countedComment id)
  upvotes := cursors.votes.countP (countedVote id voteUp)
  downvotes := cursors.votes.countP (countedVote id voteDown)
  crossposts := cursors.crossposts.countP fun entry => entry.postID = id
  commentModified := (cursors.comments.filterMap (changesOf id)).foldl max 0

theorem aggregateComment_counted {id : UInt64} {entry : CursorEntry} (found : PostAggregate)
    (report : VerifyReport) (counted : countedComment id entry = true) :
    aggregateComment id (found, report) entry =
      ({ found with
          comments := found.comments + 1
          commentModified := ((changedAt entry).toList).foldl max found.commentModified },
        { report with comments := report.comments + 1 }) := by
  unfold countedComment at counted
  rw [Bool.and_eq_true, decide_eq_true_eq, decide_eq_true_eq] at counted
  unfold aggregateComment changedAt
  rw [if_pos counted.1, if_neg (by rw [counted.2]; exact lt_irrefl _)]
  cases decodeRFC822Comment entry.postID (uint32 (entry.key.drop 9)) entry.value <;> rfl

theorem aggregateComment_other {id : UInt64} {entry : CursorEntry} (found : PostAggregate)
    (report : VerifyReport) (upTo : entry.postID ≤ id) (other : ¬ countedComment id entry = true) :
    (aggregateComment id (found, report) entry).1 = found ∧
      ((aggregateComment id (found, report) entry).2.Clean →
        report.Clean ∧ entry.key.length ≠ 13) := by
  unfold countedComment at other
  rw [Bool.and_eq_true, decide_eq_true_eq, decide_eq_true_eq] at other
  unfold aggregateComment
  by_cases whole : entry.key.length = 13
  · have below : entry.postID < id := lt_of_le_of_ne upTo fun same => other ⟨whole, same⟩
    rw [if_pos whole, if_pos below]
    exact ⟨rfl, fun clean => absurd clean (VerifyReport.not_clean_warn _ _ _)⟩
  · rw [if_neg whole]
    exact ⟨rfl, fun clean => ⟨clean, whole⟩⟩

theorem aggregateComment_fold {id : UInt64} {entries : List CursorEntry}
    (upTo : ∀ entry ∈ entries, entry.postID ≤ id) (found : PostAggregate)
    (report : VerifyReport) :
    (entries.foldl (aggregateComment id) (found, report)).1 =
      { found with
        comments := found.comments + entries.countP (countedComment id)
        commentModified :=
          (entries.filterMap (changesOf id)).foldl max found.commentModified } ∧
    ((entries.foldl (aggregateComment id) (found, report)).2.Clean →
      report.Clean ∧ ∀ entry ∈ entries, entry.key.length = 13 → entry.postID = id) := by
  induction entries generalizing found report with
  | nil => exact ⟨rfl, fun clean => ⟨clean, nofun⟩⟩
  | cons entry rest ih =>
      have later := fun other member => upTo other (List.mem_cons_of_mem _ member)
      rw [List.foldl_cons, List.countP_cons, List.filterMap_cons]
      by_cases counted : countedComment id entry = true
      · rw [aggregateComment_counted found report counted, changesOf, if_pos counted,
          if_pos counted]
        obtain ⟨sum, clean⟩ := ih later { found with
            comments := found.comments + 1
            commentModified := ((changedAt entry).toList).foldl max found.commentModified }
          { report with comments := report.comments + 1 }
        refine ⟨?_, fun cleanNow => ?_⟩
        · rw [sum, Nat.add_assoc, Nat.add_comm 1]
          cases changedAt entry <;> rfl
        · obtain ⟨before, named⟩ := clean cleanNow
          refine ⟨before, List.forall_mem_cons.mpr ⟨fun _ => ?_, named⟩⟩
          unfold countedComment at counted
          rw [Bool.and_eq_true, decide_eq_true_eq, decide_eq_true_eq] at counted
          exact counted.2
      · obtain ⟨kept, spoiled⟩ := aggregateComment_other found report
          (upTo entry List.mem_cons_self) counted
        rw [← Prod.eta (aggregateComment id (found, report) entry), kept, changesOf,
          if_neg counted, if_neg counted]
        obtain ⟨sum, clean⟩ := ih later found (aggregateComment id (found, report) entry).2
        refine ⟨sum, fun cleanNow => ?_⟩
        obtain ⟨before, named⟩ := clean cleanNow
        obtain ⟨first, narrow⟩ := spoiled before
        exact ⟨first, List.forall_mem_cons.mpr ⟨fun wide => absurd wide narrow, named⟩⟩

theorem aggregateVote_counted {id : UInt64} {entry : CursorEntry} (found : PostAggregate)
    (report : VerifyReport) (same : entry.postID = id) :
    (aggregateVote id (found, report) entry).1 =
      { found with
        upvotes := found.upvotes + if countedVote id voteUp entry then 1 else 0
        downvotes := found.downvotes + if countedVote id voteDown entry then 1 else 0 } ∧
    ((aggregateVote id (found, report) entry).2.Clean → report.Clean) := by
  unfold aggregateVote countedVote
  rw [if_neg (by rw [same]; exact lt_irrefl _), same]
  simp only [decide_true, Bool.true_and, decide_eq_true_eq]
  by_cases empty : entry.value = []
  · have neutral : voteOfValue entry.value = voteNeutral := by rw [empty]; rfl
    rw [if_pos empty, neutral, if_neg (by decide), if_neg (by decide)]
    exact ⟨rfl, fun clean => clean⟩
  · rw [if_neg empty]
    by_cases up : voteOfValue entry.value = voteUp
    · rw [if_pos up, if_pos up, if_neg (by rw [up]; decide)]
      exact ⟨rfl, fun clean => clean⟩
    · rw [if_neg up, if_neg up]
      by_cases down : voteOfValue entry.value = voteDown
      · rw [if_pos down, if_pos down]
        exact ⟨rfl, fun clean => clean⟩
      · rw [if_neg down, if_neg down]
        exact ⟨rfl, fun clean => clean⟩

theorem aggregateVote_fold {id : UInt64} {entries : List CursorEntry}
    (upTo : ∀ entry ∈ entries, entry.postID ≤ id) (found : PostAggregate)
    (report : VerifyReport) :
    (entries.foldl (aggregateVote id) (found, report)).1 =
      { found with
        upvotes := found.upvotes + entries.countP (countedVote id voteUp)
        downvotes := found.downvotes + entries.countP (countedVote id voteDown) } ∧
    ((entries.foldl (aggregateVote id) (found, report)).2.Clean →
      report.Clean ∧ ∀ entry ∈ entries, entry.postID = id) := by
  induction entries generalizing found report with
  | nil => exact ⟨rfl, fun clean => ⟨clean, nofun⟩⟩
  | cons entry rest ih =>
      have later := fun other member => upTo other (List.mem_cons_of_mem _ member)
      rw [List.foldl_cons, List.countP_cons, List.countP_cons]
      by_cases below : entry.postID < id
      · obtain ⟨sum, clean⟩ := ih later found (report.warn .votesOfMissingPost entry.postID)
        have other : ∀ vote, countedVote id vote entry = false := by
          intro vote
          simp [countedVote, ne_of_lt below]
        rw [aggregateVote, if_pos below, other, other]
        exact ⟨sum, fun cleanNow =>
          absurd (clean cleanNow).1 (VerifyReport.not_clean_warn _ _ _)⟩
      · have same : entry.postID = id :=
          le_antisymm (upTo entry List.mem_cons_self) (not_lt.mp below)
        obtain ⟨counted, unspoiled⟩ := aggregateVote_counted found report same
        obtain ⟨sum, clean⟩ := ih later (aggregateVote id (found, report) entry).1
          (aggregateVote id (found, report) entry).2
        refine ⟨?_, fun cleanNow => ?_⟩
        · rw [sum, counted]
          simp only [Nat.add_assoc, Nat.add_comm (List.countP _ rest)]
        · obtain ⟨before, named⟩ := clean cleanNow
          exact ⟨unspoiled before, List.forall_mem_cons.mpr ⟨same, named⟩⟩

theorem aggregateCrosspost_fold (id : UInt64) (entries : List CursorEntry)
    (found : PostAggregate) :
    entries.foldl (aggregateCrosspost id) found =
      { found with
        crossposts := found.crossposts + entries.countP fun entry => entry.postID = id } := by
  induction entries generalizing found with
  | nil => rfl
  | cons entry rest ih =>
      rw [List.foldl_cons, ih, List.countP_cons]
      unfold aggregateCrosspost
      by_cases same : entry.postID = id
      · simp only [same, if_true, decide_true, Nat.add_assoc, Nat.add_comm]
      · simp only [same, if_false, decide_false, Bool.false_eq_true, Nat.add_zero]

/-! ### Cursors in order -/

def beyond (bound : Option UInt64) (entry : CursorEntry) : Bool :=
  match bound with
  | none => true
  | some id => id < entry.postID

structure CursorsAt (all : Cursors) (bound : Option UInt64) (cursors : Cursors) : Prop where
  comments : cursors.comments = all.comments.filter (beyond bound)
  votes : cursors.votes = all.votes.filter (beyond bound)
  crossposts : cursors.crossposts = all.crossposts.filter (beyond bound)

def InOrder (entries : List CursorEntry) : Prop :=
  entries.Pairwise fun left right => left.postID ≤ right.postID

structure Cursors.Sorted (cursors : Cursors) : Prop where
  comments : InOrder cursors.comments
  votes : InOrder cursors.votes
  crossposts : InOrder cursors.crossposts

theorem idCursor_inOrder (letter : UInt8) (db : Pebble) : InOrder (idCursor letter db) := by
  unfold InOrder idCursor
  rw [List.pairwise_filterMap]
  apply db.ordered.imp
  intro left right less leftEntry leftRead rightEntry rightRead
  split at leftRead
  · rename_i leftShape
    split at rightRead
    · rename_i rightShape
      cases leftRead
      cases rightRead
      obtain ⟨leftKey, leftRest⟩ := List.head?_eq_some_iff.mp leftShape.1
      obtain ⟨rightKey, rightRest⟩ := List.head?_eq_some_iff.mp rightShape.1
      dsimp only
      rw [leftRest, rightRest] at less
      have tails : leftKey ≤ rightKey := by
        rcases List.cons_lt_cons_iff.mp less with below | ⟨_same, below⟩
        · exact absurd below (lt_irrefl _)
        · exact le_of_lt below
      have leftWide := leftShape.2
      have rightWide := rightShape.2
      rw [leftRest, List.length_cons] at leftWide
      rw [rightRest, List.length_cons] at rightWide
      rw [leftRest, rightRest, List.drop_succ_cons, List.drop_succ_cons, List.drop_zero,
        List.drop_zero]
      apply uint64_le_uint64
      · rw [List.length_take]
        omega
      · rw [List.length_take]
        omega
      · exact take_le_take tails 8
    · cases rightRead
  · cases leftRead

theorem cursor_split {entries : List CursorEntry} (sorted : InOrder entries)
    {bound : Option UInt64} {id : UInt64} (above : ∀ last ∈ bound, last < id) :
    (entries.filter (beyond bound)).takeWhile (fun entry => entry.postID ≤ id) =
      entries.filter (fun entry => beyond bound entry && decide (entry.postID ≤ id)) ∧
    (entries.filter (beyond bound)).dropWhile (fun entry => entry.postID ≤ id) =
      entries.filter (beyond (some id)) := by
  have down : (entries.filter (beyond bound)).Pairwise fun left right =>
      decide (right.postID ≤ id) = true → decide (left.postID ≤ id) = true := by
    apply (sorted.filter (beyond bound)).imp
    intro left right ordered upTo
    rw [decide_eq_true_eq] at upTo ⊢
    exact le_trans ordered upTo
  obtain ⟨taken, dropped⟩ := takeWhile_eq_filter down
  rw [taken, dropped, List.filter_filter, List.filter_filter]
  constructor
  · simp only [Bool.and_comm]
  · congr 1
    funext entry
    unfold beyond
    by_cases later : id < entry.postID
    · cases bound with
      | none => simp [later]
      | some last => simp [later, lt_trans (above last rfl) later]
    · simp [later, not_lt.mp later]

theorem between_of_post {bound : Option UInt64} {id : UInt64} {entry : CursorEntry}
    (above : ∀ last ∈ bound, last < id) (same : entry.postID = id) :
    (beyond bound entry && decide (entry.postID ≤ id)) = true := by
  unfold beyond
  cases bound with
  | none => simp [same]
  | some last => simp [same, above last rfl]

theorem countP_between {bound : Option UInt64} {id : UInt64} (above : ∀ last ∈ bound, last < id)
    {counts : CursorEntry → Bool} (named : ∀ entry, counts entry = true → entry.postID = id)
    (entries : List CursorEntry) :
    (entries.filter fun entry => beyond bound entry && decide (entry.postID ≤ id)).countP counts =
      entries.countP counts := by
  rw [List.countP_filter]
  apply List.countP_congr
  intro entry _
  constructor
  · intro both
    exact (Bool.and_eq_true_iff.mp both).1
  · intro counted
    exact Bool.and_eq_true_iff.mpr ⟨counted, between_of_post above (named entry counted)⟩

theorem postID_of_countedComment {id : UInt64} {entry : CursorEntry}
    (counted : countedComment id entry = true) : entry.postID = id := by
  unfold countedComment at counted
  exact of_decide_eq_true (Bool.and_eq_true_iff.mp counted).2

theorem postID_of_countedVote {id : UInt64} {vote : VoteType} {entry : CursorEntry}
    (counted : countedVote id vote entry = true) : entry.postID = id := by
  unfold countedVote at counted
  exact of_decide_eq_true (Bool.and_eq_true_iff.mp counted).1

theorem aggregate_spec {all cursors : Cursors} (sorted : all.Sorted) {bound : Option UInt64}
    (placed : CursorsAt all bound cursors) {id : UInt64} (above : ∀ last ∈ bound, last < id)
    (report : VerifyReport) :
    (aggregate id cursors report).1 = aggregateOf id all ∧
    CursorsAt all (some id) (aggregate id cursors report).2.1 ∧
    ((aggregate id cursors report).2.2.Clean →
      report.Clean ∧
      (∀ entry ∈ all.comments, beyond bound entry = true → entry.postID ≤ id →
        entry.key.length = 13 → entry.postID = id) ∧
      ∀ entry ∈ all.votes, beyond bound entry = true → entry.postID ≤ id →
        entry.postID = id) := by
  obtain ⟨comments, votes, crossposts⟩ := placed
  obtain ⟨commentsTaken, commentsLeft⟩ := cursor_split sorted.comments above
  obtain ⟨votesTaken, votesLeft⟩ := cursor_split sorted.votes above
  obtain ⟨crosspostsTaken, crosspostsLeft⟩ := cursor_split sorted.crossposts above
  unfold aggregate
  dsimp only
  rw [comments, votes, crossposts, commentsTaken, votesTaken, crosspostsTaken, commentsLeft,
    votesLeft, crosspostsLeft, aggregateCrosspost_fold]
  have upTo : ∀ entries : List CursorEntry, ∀ entry ∈ entries.filter (fun entry =>
      beyond bound entry && decide (entry.postID ≤ id)), entry.postID ≤ id := by
    intro entries entry member
    exact of_decide_eq_true (Bool.and_eq_true_iff.mp (List.mem_filter.mp member).2).2
  obtain ⟨counted, commentsClean⟩ := aggregateComment_fold (upTo all.comments) {} report
  generalize List.foldl (aggregateComment id) ({}, report) _ = state at counted commentsClean ⊢
  obtain ⟨voted, votesClean⟩ := aggregateVote_fold (upTo all.votes) state.1 state.2
  refine ⟨?_, ⟨rfl, rfl, rfl⟩, ?_⟩
  · rw [voted, counted]
    unfold aggregateOf
    rw [countP_between above fun _ => postID_of_countedComment,
      countP_between above fun _ => postID_of_countedVote,
      countP_between above fun _ => postID_of_countedVote,
      countP_between above fun _ => of_decide_eq_true]
    have changes : (all.comments.filter fun entry =>
        beyond bound entry && decide (entry.postID ≤ id)).filterMap (changesOf id) =
        all.comments.filterMap (changesOf id) := by
      apply filterMap_filter_of
      intro entry _ read
      apply between_of_post above
      unfold changesOf at read
      split at read
      · rename_i counted
        exact postID_of_countedComment counted
      · exact absurd rfl read
    rw [changes]
    simp only [Nat.zero_add]
  · intro clean
    obtain ⟨between, votesNamed⟩ := votesClean clean
    obtain ⟨before, commentsNamed⟩ := commentsClean between
    have inside : ∀ (entries : List CursorEntry) (entry : CursorEntry), entry ∈ entries →
        beyond bound entry = true → entry.postID ≤ id → entry ∈ entries.filter (fun entry =>
          beyond bound entry && decide (entry.postID ≤ id)) := by
      intro entries entry member later upTo
      exact List.mem_filter.mpr ⟨member, Bool.and_eq_true_iff.mpr ⟨later, decide_eq_true upTo⟩⟩
    refine ⟨before, ?_, ?_⟩
    · intro entry member later upTo wide
      exact commentsNamed entry (inside _ entry member later upTo) wide
    · intro entry member later upTo
      exact votesNamed entry (inside _ entry member later upTo)

/-! ### The merge -/

theorem nextRow_clean {merge : Merge} (clean : (nextRow merge).report.Clean) :
    merge.report.Clean ∧ (nextRow merge).row.toList ++ (nextRow merge).rows = merge.rows ∧
      ((nextRow merge).row = none → (nextRow merge).rows = []) ∧
      ∀ row ∈ (nextRow merge).row, bindable row.1 = true ∧ bindable row.2.parentID = true := by
  unfold nextRow at clean ⊢
  cases rows : merge.rows with
  | nil =>
      rw [rows] at clean
      exact ⟨clean, rfl, fun _ => rfl, fun _ found => absurd found (Option.not_mem_none _)⟩
  | cons entry rest =>
      rw [rows] at clean
      dsimp only at clean ⊢
      split at clean
      · rename_i scanned
        rw [if_pos scanned]
        refine ⟨clean, rfl, fun none => (by cases none), ?_⟩
        intro row same
        cases same
        exact Bool.and_eq_true_iff.mp scanned
      · exact absurd clean (VerifyReport.not_clean_error _ _)

@[simp] theorem nextRow_posts (merge : Merge) : (nextRow merge).posts = merge.posts := by
  unfold nextRow
  split
  · rfl
  · split <;> rfl

@[simp] theorem nextRow_cursors (merge : Merge) : (nextRow merge).cursors = merge.cursors := by
  unfold nextRow
  split
  · rfl
  · split <;> rfl

theorem mergeMissing_not_clean (merge : Merge) (id : UInt64) (posts : List (Bytes × Bytes)) :
    ¬ (mergeMissing merge id posts).1.report.Clean := by
  unfold mergeMissing
  dsimp only
  split
  · exact VerifyReport.not_clean_error _ _
  · exact VerifyReport.not_clean_error _ _

theorem mergeOnlyRow_not_clean (merge : Merge) (id : UInt64) :
    ¬ (mergeOnlyRow merge id).report.Clean := by
  intro clean
  exact VerifyReport.not_clean_warn _ _ _ (nextRow_clean clean).1

theorem mergeBoth_clean {merge : Merge} {all : Cursors} (sorted : all.Sorted)
    {bound : Option UInt64} (placed : CursorsAt all bound merge.cursors) {id : UInt64}
    (above : ∀ last ∈ bound, last < id) {row : PostRow} {value : Bytes}
    {posts : List (Bytes × Bytes)} (clean : (mergeBoth merge id row value posts).report.Clean) :
    merge.report.Clean ∧ Compared row (decodeRFC822Post value).1 (aggregateOf id all) ∧
      CursorsAt all (some id) (mergeBoth merge id row value posts).cursors ∧
      (∀ entry ∈ all.comments, beyond bound entry = true → entry.postID ≤ id →
        entry.key.length = 13 → entry.postID = id) ∧
      ∀ entry ∈ all.votes, beyond bound entry = true → entry.postID ≤ id →
        entry.postID = id := by
  obtain ⟨found, behind, seen⟩ := aggregate_spec sorted placed above
    { merge.report with posts := merge.report.posts + 1 }
  unfold mergeBoth at clean ⊢
  dsimp only at clean ⊢
  obtain ⟨compared, _rest⟩ := nextRow_clean clean
  obtain ⟨before, agrees⟩ := comparePost_clean compared
  obtain ⟨start, comments, votes⟩ := seen before
  rw [nextRow_cursors]
  exact ⟨start, found ▸ agrees, behind, comments, votes⟩

theorem aggregate_report {id : UInt64} {cursors : Cursors} {report : VerifyReport}
    (clean : (aggregate id cursors report).2.2.Clean) : report.Clean := by
  have upTo : ∀ entries : List CursorEntry, ∀ entry ∈ entries.takeWhile (fun entry =>
      decide (entry.postID ≤ id)), entry.postID ≤ id := by
    intro entries entry member
    have kept := List.mem_takeWhile_imp member
    exact of_decide_eq_true kept
  have votes := (aggregateVote_fold (upTo cursors.votes) _ _).2 clean
  exact ((aggregateComment_fold (upTo cursors.comments) _ _).2 votes.1).1

theorem mergeBoth_report {merge : Merge} {id : UInt64} {row : PostRow} {value : Bytes}
    {posts : List (Bytes × Bytes)} (clean : (mergeBoth merge id row value posts).report.Clean) :
    merge.report.Clean := by
  have compared := (comparePost_clean (nextRow_clean clean).1).1
  have counted : VerifyReport.Clean { merge.report with posts := merge.report.posts + 1 } :=
    aggregate_report compared
  exact counted

theorem mergeMissing_stops {rounds : Nat} {merge : Merge} (id : UInt64)
    (posts : List (Bytes × Bytes))
    (kept : ∀ merge : Merge, (mergeLoop rounds merge).1.report.Clean → merge.report.Clean) :
    ¬ ((match mergeMissing merge id posts with
      | (merge, true) => (merge, true)
      | (merge, false) => mergeLoop rounds merge).1.report.Clean) := by
  intro clean
  have spoiled := mergeMissing_not_clean merge id posts
  cases result : mergeMissing merge id posts with
  | mk next stopped =>
      rw [result] at spoiled clean
      cases stopped with
      | true => exact spoiled clean
      | false => exact spoiled (kept next clean)

theorem mergeLoop_report {rounds : Nat} (merge : Merge)
    (clean : (mergeLoop rounds merge).1.report.Clean) : merge.report.Clean := by
  induction rounds generalizing merge with
  | zero => exact clean
  | succ rounds ih =>
      obtain ⟨posts, row, rows, cursors, report⟩ := merge
      cases posts with
      | nil =>
          cases row with
          | none => exact clean
          | some row => exact absurd (ih _ clean) (mergeOnlyRow_not_clean _ _)
      | cons post posts =>
          simp only [mergeLoop] at clean
          cases decoded : decodePostKey post.1 with
          | none =>
              rw [decoded] at clean
              exact ih ⟨posts, row, rows, cursors, report⟩ clean
          | some id =>
              rw [decoded] at clean
              cases row with
              | none => exact absurd clean (mergeMissing_stops id posts ih)
              | some row =>
                  dsimp only at clean
                  split at clean
                  · exact absurd clean (mergeMissing_stops id posts ih)
                  · split at clean
                    · exact absurd (ih _ clean) (mergeOnlyRow_not_clean _ _)
                    · exact mergeBoth_report (ih _ clean)

def idPosts (posts : List (Bytes × Bytes)) : List (UInt64 × Bytes) :=
  posts.filterMap fun post => (decodePostKey post.1).map fun id => (id, post.2)

structure Matched (all : Cursors) (post : UInt64 × Bytes) (row : UInt64 × PostRow) : Prop where
  same : post.1 = row.1
  number : bindable row.1 = true
  parent : bindable row.2.parentID = true
  compared : Compared row.2 (decodeRFC822Post post.2).1 (aggregateOf row.1 all)

structure MergeAt (all : Cursors) (bound : Option UInt64) (merge : Merge) : Prop where
  placed : CursorsAt all bound merge.cursors
  ordered : (idPosts merge.posts).Pairwise fun left right => left.1 < right.1
  above : ∀ post ∈ idPosts merge.posts, ∀ last ∈ bound, last < post.1
  scanned : ∀ row ∈ merge.row, bindable row.1 = true ∧ bindable row.2.parentID = true
  finished : merge.row = none → merge.rows = []

/-- What a merge that stands behind a post has done when it is through: the rows are
those of the records, and only the records behind the last post are left. -/
structure MergedFrom (all : Cursors) (bound : Option UInt64) (merge : Merge)
    (result : Merge × Bool) : Prop where
  through : result.2 = false
  matched : List.Forall₂ (Matched all) (idPosts merge.posts) (merge.row.toList ++ merge.rows)
  left : ∃ last, CursorsAt all last result.1.cursors ∧
    (∀ entry ∈ all.comments, beyond bound entry = true → entry.key.length = 13 →
      beyond last entry = true ∨ entry.postID ∈ (idPosts merge.posts).map Prod.fst) ∧
    ∀ entry ∈ all.votes, beyond bound entry = true →
      beyond last entry = true ∨ entry.postID ∈ (idPosts merge.posts).map Prod.fst

theorem mergeLoop_both {all : Cursors} (sorted : all.Sorted) {rounds : Nat}
    {bound : Option UInt64} {post : Bytes × Bytes} {posts : List (Bytes × Bytes)}
    {row : UInt64 × PostRow} {rows : List (UInt64 × PostRow)} {cursors : Cursors}
    {report : VerifyReport} {id : UInt64}
    (stands : MergeAt all bound ⟨post :: posts, some row, rows, cursors, report⟩)
    (headed : idPosts (post :: posts) = (id, post.2) :: idPosts posts) (same : id = row.1)
    (enough : (post :: posts).length + (some row).toList.length + rows.length ≤ rounds + 1)
    (clean : (mergeLoop rounds (mergeBoth ⟨post :: posts, some row, rows, cursors, report⟩ id
      row.2 post.2 posts)).1.report.Clean)
    (ih : ∀ {merge : Merge} {bound : Option UInt64}, MergeAt all bound merge →
      merge.posts.length + merge.row.toList.length + merge.rows.length ≤ rounds →
      (mergeLoop rounds merge).1.report.Clean → MergedFrom all bound merge
        (mergeLoop rounds merge)) :
    MergedFrom all bound ⟨post :: posts, some row, rows, cursors, report⟩
      (mergeLoop rounds (mergeBoth ⟨post :: posts, some row, rows, cursors, report⟩ id
        row.2 post.2 posts)) := by
  have before := mergeLoop_report _ clean
  have ordered := stands.ordered
  have above := stands.above
  rw [headed] at ordered above
  obtain ⟨later, laterOrdered⟩ := List.pairwise_cons.mp ordered
  obtain ⟨_report, compared, behind, comments, votes⟩ := mergeBoth_clean sorted stands.placed
    (above _ List.mem_cons_self) before
  obtain ⟨_compared, restRows, noMore, scanned⟩ := nextRow_clean before
  have postsLeft : (mergeBoth ⟨post :: posts, some row, rows, cursors, report⟩ id row.2 post.2
      posts).posts = posts := nextRow_posts _
  have rowsLeft : (mergeBoth ⟨post :: posts, some row, rows, cursors, report⟩ id row.2 post.2
      posts).row.toList ++ (mergeBoth ⟨post :: posts, some row, rows, cursors, report⟩ id row.2
        post.2 posts).rows = rows := restRows
  have next : MergeAt all (some id) (mergeBoth ⟨post :: posts, some row, rows, cursors, report⟩
      id row.2 post.2 posts) := by
    refine ⟨behind, ?_, ?_, scanned, noMore⟩
    · rw [postsLeft]
      exact laterOrdered
    · rw [postsLeft]
      intro other member last isLast
      cases isLast
      exact later other member
  have fewer := congrArg List.length rowsLeft
  rw [List.length_append] at fewer
  obtain ⟨through, matched, last, placed, laterComments, laterVotes⟩ := ih next
    (by rw [postsLeft]; simp only [List.length_cons, Option.toList_some, List.length_singleton]
          at enough; omega) clean
  rw [postsLeft] at matched laterComments laterVotes
  rw [rowsLeft] at matched
  obtain ⟨number, parent⟩ := stands.scanned row rfl
  refine ⟨through, ?_, last, placed, ?_, ?_⟩
  · rw [headed]
    exact List.Forall₂.cons ⟨same, number, parent, same ▸ compared⟩ matched
  · intro entry member isLater wide
    rw [headed, List.map_cons, List.mem_cons]
    by_cases upTo : entry.postID ≤ id
    · exact Or.inr (Or.inl (comments entry member isLater upTo wide))
    · have beyondID : beyond (some id) entry = true := decide_eq_true (not_le.mp upTo)
      exact (laterComments entry member beyondID wide).imp_right Or.inr
  · intro entry member isLater
    rw [headed, List.map_cons, List.mem_cons]
    by_cases upTo : entry.postID ≤ id
    · exact Or.inr (Or.inl (votes entry member isLater upTo))
    · have beyondID : beyond (some id) entry = true := decide_eq_true (not_le.mp upTo)
      exact (laterVotes entry member beyondID).imp_right Or.inr

theorem mergeLoop_clean {all : Cursors} (sorted : all.Sorted) {rounds : Nat} {merge : Merge}
    {bound : Option UInt64} (stands : MergeAt all bound merge)
    (enough : merge.posts.length + merge.row.toList.length + merge.rows.length ≤ rounds)
    (clean : (mergeLoop rounds merge).1.report.Clean) :
    MergedFrom all bound merge (mergeLoop rounds merge) := by
  induction rounds generalizing merge bound with
  | zero =>
      obtain ⟨posts, row, rows, cursors, report⟩ := merge
      have none : posts = [] ∧ row = none ∧ rows = [] := by
        cases row with
        | none =>
            refine ⟨List.eq_nil_of_length_eq_zero ?_, rfl, List.eq_nil_of_length_eq_zero ?_⟩
            · exact Nat.eq_zero_of_add_eq_zero_right (Nat.eq_zero_of_add_eq_zero_right
                (Nat.le_zero.mp enough))
            · exact Nat.eq_zero_of_add_eq_zero_left (Nat.le_zero.mp enough)
        | some row =>
            simp only [Option.toList_some, List.length_singleton] at enough
            omega
      obtain ⟨rfl, rfl, rfl⟩ := none
      exact ⟨rfl, List.Forall₂.nil, bound, stands.placed, fun _ _ later _ => Or.inl later,
        fun _ _ later => Or.inl later⟩
  | succ rounds ih =>
      obtain ⟨posts, row, rows, cursors, report⟩ := merge
      cases posts with
      | nil =>
          cases row with
          | none =>
              have noRows : rows = [] := stands.finished rfl
              subst noRows
              exact ⟨rfl, List.Forall₂.nil, bound, stands.placed,
                fun _ _ later _ => Or.inl later, fun _ _ later => Or.inl later⟩
          | some row =>
              exact absurd (mergeLoop_report (mergeOnlyRow _ row.1) clean)
                (mergeOnlyRow_not_clean _ _)
      | cons post posts =>
          simp only [mergeLoop] at clean ⊢
          cases decoded : decodePostKey post.1 with
          | none =>
              have skipped : idPosts (post :: posts) = idPosts posts := by
                unfold idPosts
                rw [List.filterMap_cons, decoded]
                rfl
              rw [decoded] at clean
              have next : MergeAt all bound ⟨posts, row, rows, cursors, report⟩ := by
                obtain ⟨placed, ordered, above, scanned, finished⟩ := stands
                rw [skipped] at ordered above
                exact ⟨placed, ordered, above, scanned, finished⟩
              obtain ⟨through, matched, left⟩ := ih next
                (by simp only [List.length_cons] at enough ⊢; omega) clean
              refine ⟨through, ?_, ?_⟩
              · rw [skipped]
                exact matched
              · rw [skipped]
                exact left
          | some id =>
              have headed : idPosts (post :: posts) = (id, post.2) :: idPosts posts := by
                unfold idPosts
                rw [List.filterMap_cons, decoded]
                rfl
              rw [decoded] at clean
              cases row with
              | none => exact absurd clean (mergeMissing_stops id posts mergeLoop_report)
              | some row =>
                  dsimp only at clean ⊢
                  split at clean
                  · exact absurd clean (mergeMissing_stops id posts mergeLoop_report)
                  · rename_i notBelow
                    split at clean
                    · exact absurd (mergeLoop_report _ clean) (mergeOnlyRow_not_clean _ _)
                    · rename_i notAbove
                      have same : id = row.1 := le_antisymm (not_lt.mp notAbove)
                        (not_lt.mp notBelow)
                      rw [if_neg notBelow, if_neg notAbove]
                      exact mergeLoop_both sorted stands headed same enough clean ih

/-! ### A clean report -/

theorem mem_idPosts (db : Pebble) (id : UInt64) (value : Bytes) :
    (id, value) ∈ idPosts (Engine.lettered letterP db) ↔
      db.get? (encodePostKey id) = some value := by
  unfold idPosts Engine.lettered
  rw [List.mem_filterMap, OrderedMap.get?_eq_some_iff]
  constructor
  · rintro ⟨⟨key, stored⟩, member, read⟩
    obtain ⟨found, decoded, same⟩ := Option.map_eq_some_iff.mp read
    cases same
    rw [decodePostKey_eq_some_iff] at decoded
    have inside := (List.mem_filter.mp member).1
    dsimp only at decoded
    rw [decoded] at inside
    exact inside
  · intro member
    refine ⟨(encodePostKey id, value), ?_, ?_⟩
    · exact List.mem_filter.mpr ⟨member, decide_eq_true (encodePostKey_head id)⟩
    · dsimp only
      rw [decodePostKey_encodePostKey]
      rfl

theorem idPosts_ordered (db : Pebble) :
    (idPosts (Engine.lettered letterP db)).Pairwise fun left right => left.1 < right.1 := by
  unfold idPosts Engine.lettered
  rw [List.pairwise_filterMap]
  apply (db.ordered.filter _).imp
  intro left right less leftPost leftRead rightPost rightRead
  obtain ⟨leftID, leftKey, rfl⟩ := Option.map_eq_some_iff.mp leftRead
  obtain ⟨rightID, rightKey, rfl⟩ := Option.map_eq_some_iff.mp rightRead
  rw [decodePostKey_eq_some_iff.mp leftKey, decodePostKey_eq_some_iff.mp rightKey] at less
  rcases List.cons_lt_cons_iff.mp less with below | ⟨_same, below⟩
  · exact absurd below (lt_irrefl _)
  · rw [UInt64.lt_iff_toNat_lt]
    exact (bigEndian_lt_iff 8 _ _ leftID.toNat_lt rightID.toNat_lt).mp below

theorem mem_metaRows (metaDB : MetaDB) (entry : UInt64 × PostRow) :
    entry ∈ metaRows metaDB ↔ metaDB.posts.get? entry.1 = some entry.2 := by
  unfold metaRows
  rw [OrderedMap.get?_eq_some_iff, List.mem_append, List.mem_filter, List.mem_filter]
  cases bindable entry.1 <;> simp

theorem forall₂_partners {Left Right : Type} {Pairs : Left → Right → Prop} {lefts : List Left}
    {rights : List Right} (paired : List.Forall₂ Pairs lefts rights) :
    (∀ left ∈ lefts, ∃ right ∈ rights, Pairs left right) ∧
      ∀ right ∈ rights, ∃ left ∈ lefts, Pairs left right := by
  induction paired with
  | nil => exact ⟨nofun, nofun⟩
  | @cons first second lefts rights here _ ih =>
      constructor
      · intro left member
        rcases List.mem_cons.mp member with same | later
        · exact ⟨second, List.mem_cons_self, same ▸ here⟩
        · obtain ⟨right, inside, pairs⟩ := ih.1 left later
          exact ⟨right, List.mem_cons_of_mem _ inside, pairs⟩
      · intro right member
        rcases List.mem_cons.mp member with same | later
        · exact ⟨first, List.mem_cons_self, same ▸ here⟩
        · obtain ⟨left, inside, pairs⟩ := ih.2 right later
          exact ⟨left, List.mem_cons_of_mem _ inside, pairs⟩

def lastNumber : UInt64 := 0xffffffffffffffff

theorem aggregate_last {cursors : Cursors} {report : VerifyReport}
    (clean : (aggregate lastNumber cursors report).2.2.Clean) :
    (∀ entry ∈ cursors.comments, entry.key.length = 13 → entry.postID = lastNumber) ∧
      ∀ entry ∈ cursors.votes, entry.postID = lastNumber := by
  have upTo : ∀ number : UInt64, number ≤ lastNumber := by
    intro number
    rw [UInt64.le_iff_toNat_le]
    exact Nat.le_of_lt_succ number.toNat_lt
  have whole : ∀ entries : List CursorEntry, entries.takeWhile (fun entry =>
      decide (entry.postID ≤ lastNumber)) = entries := by
    intro entries
    rw [List.takeWhile_eq_self_iff]
    exact fun entry _ => decide_eq_true (upTo entry.postID)
  unfold aggregate at clean
  dsimp only at clean
  rw [whole, whole] at clean
  obtain ⟨between, votes⟩ := (aggregateVote_fold (fun entry _ => upTo entry.postID) _ _).2 clean
  obtain ⟨_before, comments⟩ :=
    (aggregateComment_fold (fun entry _ => upTo entry.postID) _ _).2 between
  exact ⟨comments, votes⟩

structure Verified (engine : Engine) : Prop where
  rows : ∀ id row, engine.metaDB.posts.get? id = some row →
    bindable id = true ∧ bindable row.parentID = true ∧
      ∃ value, engine.postsDB.get? (encodePostKey id) = some value ∧
        Compared row (decodeRFC822Post value).1 (aggregateOf id engine.cursors)
  records : ∀ id value, engine.postsDB.get? (encodePostKey id) = some value →
    ∃ row, engine.metaDB.posts.get? id = some row
  comments : ∀ entry ∈ engine.cursors.comments, entry.key.length = 13 →
    entry.postID = lastNumber ∨ bindable entry.postID = true
  votes : ∀ entry ∈ engine.cursors.votes,
    entry.postID = lastNumber ∨ bindable entry.postID = true

theorem verified_of_clean {engine : Engine} (clean : engine.compareMetaWithPebble.Clean) :
    Verified engine := by
  unfold Engine.compareMetaWithPebble at clean
  dsimp only at clean
  generalize rounds : engine.mergeStart.posts.length + engine.mergeStart.rows.length + 1 = count
    at clean
  have sorted : engine.cursors.Sorted :=
    ⟨idCursor_inOrder _ _, idCursor_inOrder _ _, idCursor_inOrder _ _⟩
  obtain ⟨looped, drained⟩ : (mergeLoop count engine.mergeStart).1.report.Clean ∧
      ((mergeLoop count engine.mergeStart).2 = false → (aggregate lastNumber
        (mergeLoop count engine.mergeStart).1.cursors
        (mergeLoop count engine.mergeStart).1.report).2.2.Clean) := by
    split at clean
    · rename_i result
      rw [result]
      exact ⟨clean, nofun⟩
    · rename_i result
      rw [result]
      dsimp only at clean ⊢
      split at clean
      · exact ⟨aggregate_report clean, fun _ => clean⟩
      · exact absurd clean (VerifyReport.not_clean_warn _ _ _)
  obtain ⟨_empty, allRows, finished, scanned⟩ :=
    nextRow_clean (mergeLoop_report engine.mergeStart looped)
  have postsNow : engine.mergeStart.posts = Engine.lettered letterP engine.postsDB :=
    nextRow_posts _
  have stands : MergeAt engine.cursors none engine.mergeStart := by
    have cursorsNow : engine.mergeStart.cursors = engine.cursors := nextRow_cursors _
    refine ⟨?_, ?_, fun _ _ _ => nofun, scanned, finished⟩
    · rw [cursorsNow]
      exact ⟨(List.filter_eq_self.mpr fun _ _ => rfl).symm,
        (List.filter_eq_self.mpr fun _ _ => rfl).symm,
        (List.filter_eq_self.mpr fun _ _ => rfl).symm⟩
    · rw [postsNow]
      exact idPosts_ordered _
  have enough : engine.mergeStart.posts.length + engine.mergeStart.row.toList.length +
      engine.mergeStart.rows.length ≤ count := by
    cases engine.mergeStart.row with
    | none => simp only [Option.toList_none, List.length_nil]; omega
    | some row => simp only [Option.toList_some, List.length_singleton]; omega
  have merged := mergeLoop_clean sorted stands enough looped
  have matched := merged.matched
  rw [postsNow] at matched
  have rowsNow : engine.mergeStart.row.toList ++ engine.mergeStart.rows =
      metaRows engine.metaDB := allRows
  rw [rowsNow] at matched
  obtain ⟨postsMatched, rowsMatched⟩ := forall₂_partners matched
  have numbers : ∀ id ∈ (idPosts engine.mergeStart.posts).map Prod.fst, bindable id = true := by
    intro id member
    obtain ⟨post, inside, rfl⟩ := List.mem_map.mp member
    rw [postsNow] at inside
    obtain ⟨row, _inside, same, number, _rest⟩ := postsMatched post inside
    rw [same]
    exact number
  obtain ⟨last, placed, commentsKnown, votesKnown⟩ := merged.left
  obtain ⟨commentsLast, votesLast⟩ := aggregate_last (drained merged.through)
  rw [placed.comments] at commentsLast
  rw [placed.votes] at votesLast
  refine ⟨?_, ?_, ?_, ?_⟩
  · intro id row stored
    obtain ⟨⟨found, value⟩, member, same, number, parent, compared⟩ :=
      rowsMatched (id, row) ((mem_metaRows _ _).mpr stored)
    dsimp only at same number parent compared
    rw [same, mem_idPosts] at member
    exact ⟨number, parent, value, member, compared⟩
  · intro id value stored
    obtain ⟨⟨found, row⟩, member, same, _rest⟩ :=
      postsMatched (id, value) ((mem_idPosts _ _ _).mpr stored)
    rw [mem_metaRows] at member
    dsimp only at same member
    exact ⟨row, same ▸ member⟩
  · intro entry member wide
    rcases commentsKnown entry member rfl wide with later | known
    · exact Or.inl (commentsLast entry (List.mem_filter.mpr ⟨member, later⟩) wide)
    · exact Or.inr (numbers _ known)
  · intro entry member
    rcases votesKnown entry member rfl with later | known
    · exact Or.inl (votesLast entry (List.mem_filter.mpr ⟨member, later⟩))
    · exact Or.inr (numbers _ known)

end Pttbbs.PostSvc
