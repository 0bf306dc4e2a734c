/-
Merging the comments of an imported article.

Comments that one author wrote in a row become one comment of a few lines.  The
comments are then turned into records and votes, one vote for each name.
-/

import Mathlib.Data.List.Nodup
import Pttbbs.PostSvc.DeletedTitle

namespace Pttbbs.PostSvc

open Pttbbs.Lib

def legacyTypeOldRecommend : UInt8 := 0

def legacyTypePush : UInt8 := 1

def legacyTypeBoo : UInt8 := 2

def legacyTypeArrow : UInt8 := 3

structure ParsedComment where
  creatorName : Bytes := []
  content : Bytes := []
  ip : Bytes := []
  ctime : Int64 := 0
  lastCTime : Int64 := 0
  commentType : Bytes := []
  legacyType : UInt8 := 0
deriving DecidableEq

namespace ParsedComment

def isBlank (comment : ParsedComment) : Bool := trimSpace comment.content = []

def lastTime (previous : ParsedComment) : Int64 :=
  if previous.lastCTime = 0 then previous.ctime else previous.lastCTime

/-- Within three minutes, in 64-bit arithmetic. -/
def soonAfter (previous added : ParsedComment) : Bool :=
  let diff := added.ctime - previous.lastTime
  (if diff < 0 then -diff else diff) ≤ 180

/-- An arrow continues anything, an old recommendation only its own kind. -/
def continuesKind (previous added : ParsedComment) : Bool :=
  added.legacyType = legacyTypeArrow ||
    (previous.legacyType = legacyTypeOldRecommend && added.legacyType = legacyTypeOldRecommend)

def fitsUnder (previous added : ParsedComment) : Bool :=
  countCommentLines previous.content + countCommentLines added.content ≤ maxCommentLines

def absorb (previous added : ParsedComment) : ParsedComment :=
  { previous with
    content := previous.content ++ newline :: added.content
    ip := if previous.ip = [] && added.ip ≠ [] then added.ip else previous.ip
    lastCTime := added.ctime }

def vote (comment : ParsedComment) : VoteType :=
  if comment.commentType = utf8 "推" || comment.legacyType = legacyTypePush then voteUp
  else if comment.commentType = utf8 "噓" || comment.legacyType = legacyTypeBoo then voteDown
  else voteNeutral

def personID (users : Option UserResolver) (comment : ParsedComment) : PersonID :=
  resolvePersonID users comment.creatorName 0 comment.ctime

end ParsedComment

/-! ### Merging -/

section Merging

-- `strings.EqualFold`; nothing below depends on which names it identifies.
variable (equalFold : Bytes → Bytes → Bool)

def canMerge (previous added : ParsedComment) : Bool :=
  equalFold previous.creatorName added.creatorName && previous.soonAfter added &&
    previous.continuesKind added && previous.fitsUnder added

/-- The loop: only the last comment of the result is still open. -/
def mergeFrom : Option ParsedComment → List ParsedComment → List ParsedComment
  | last, [] => last.toList
  | last, comment :: rest =>
      if comment.isBlank then mergeFrom last rest
      else
        match last with
        | none => mergeFrom (some comment) rest
        | some previous =>
            if canMerge equalFold previous comment then
              mergeFrom (some (previous.absorb comment)) rest
            else previous :: mergeFrom (some comment) rest

def mergeConsecutiveComments (comments : List ParsedComment) : List ParsedComment :=
  mergeFrom equalFold none comments

end Merging

/-! ### Records and votes -/

def ParsedComment.toComment (users : Option UserResolver) (parsed : ParsedComment) : Comment where
  creatorName := parsed.creatorName
  creatorID := parsed.personID users
  content := parsed.content
  ip := parsed.ip
  createdAt := parsed.ctime
  lastCommentAt := parsed.lastCTime
  legacyType := parsed.legacyType

/-- One vote for each name: a later one takes the place of the first. -/
def recordVote (users : Option UserResolver) (votes : List VoteRecord) (parsed : ParsedComment) :
    List VoteRecord :=
  if parsed.vote = voteNeutral then votes
  else if votes.any (fun record => record.personName = parsed.creatorName) then
    votes.map fun record =>
      if record.personName = parsed.creatorName then
        { record with
          vote := parsed.vote, personID := parsed.personID users, createdAt := parsed.ctime }
      else record
  else
    votes ++ [{ personName := parsed.creatorName, personID := parsed.personID users,
                vote := parsed.vote, createdAt := parsed.ctime }]

structure Converted where
  comments : List Comment
  votes : List VoteRecord
  upvotes : Nat
  downvotes : Nat

def convertVotes (users : Option UserResolver) (parsed : List ParsedComment) : List VoteRecord :=
  parsed.foldl (recordVote users) []

def convertParsedComments (parsed : List ParsedComment) (users : Option UserResolver) : Converted :=
  let votes := convertVotes users parsed
  { comments := parsed.map (ParsedComment.toComment users)
    votes := votes
    upvotes := votes.countP fun record => record.vote = voteUp
    downvotes := votes.countP fun record => ¬ record.vote = voteUp }

/-! ### What merging keeps -/

def writtenLines (content : Bytes) : List Bytes :=
  (splitOn newline content).filter fun line => trimSpace line ≠ []

theorem writtenLines_append (left right : Bytes) :
    writtenLines (left ++ newline :: right) = writtenLines left ++ writtenLines right := by
  unfold writtenLines
  rw [splitOn_append_cons, List.filter_append]

theorem writtenLines_blank {comment : ParsedComment} (empty : comment.isBlank = true) :
    writtenLines comment.content = [] := by
  unfold writtenLines
  rw [List.filter_eq_nil_iff]
  intro line member
  simp [trimSpace_line_eq_nil (of_decide_eq_true empty) member]

theorem contentLines_le_count (content : Bytes) :
    (contentLines content).length ≤ countCommentLines content := by
  unfold countCommentLines
  dsimp only
  split
  · rename_i none
    omega
  · exact Nat.le_refl _

theorem countCommentLines_absorb {previous added : ParsedComment}
    (fits : previous.fitsUnder added = true) :
    countCommentLines (previous.absorb added).content ≤ maxCommentLines := by
  have total : countCommentLines previous.content + countCommentLines added.content ≤
      maxCommentLines := of_decide_eq_true fits
  have left := contentLines_le_count previous.content
  have right := contentLines_le_count added.content
  change countCommentLines (previous.content ++ newline :: added.content) ≤ _
  unfold countCommentLines
  dsimp only
  split
  · decide
  · rw [contentLines_append, List.length_append]
    omega

theorem fitsUnder_of_canMerge {equalFold : Bytes → Bytes → Bool}
    {previous added : ParsedComment} (merges : canMerge equalFold previous added = true) :
    previous.fitsUnder added = true :=
  (Bool.and_eq_true _ _ ▸ merges : _ ∧ _).2

section Kept

variable (equalFold : Bytes → Bytes → Bool)

theorem mergeFrom_cons (last : Option ParsedComment) (comment : ParsedComment)
    (rest : List ParsedComment) :
    mergeFrom equalFold last (comment :: rest) =
      if comment.isBlank then mergeFrom equalFold last rest
      else
        match last with
        | none => mergeFrom equalFold (some comment) rest
        | some previous =>
            if canMerge equalFold previous comment then
              mergeFrom equalFold (some (previous.absorb comment)) rest
            else previous :: mergeFrom equalFold (some comment) rest := by
  cases last <;> rfl

theorem mergeFrom_lines (last : Option ParsedComment) (comments : List ParsedComment) :
    (mergeFrom equalFold last comments).flatMap (fun comment => writtenLines comment.content) =
      (last.toList ++ comments).flatMap (fun comment => writtenLines comment.content) := by
  induction comments generalizing last with
  | nil => rw [mergeFrom, List.append_nil]
  | cons comment rest ih =>
      rw [mergeFrom_cons]
      split
      · rename_i empty
        rw [ih, List.flatMap_append, List.flatMap_append, List.flatMap_cons,
          writtenLines_blank empty, List.nil_append]
      · cases last with
        | none => exact ih (some comment)
        | some previous =>
            dsimp only
            split
            · rw [ih]
              simp only [Option.toList_some, List.singleton_append, List.flatMap_cons]
              rw [ParsedComment.absorb, writtenLines_append, List.append_assoc]
            · rw [List.flatMap_cons, ih]
              simp only [Option.toList_some, List.singleton_append, List.flatMap_cons]

theorem mem_mergeFrom {last : Option ParsedComment} {comments : List ParsedComment}
    {output : ParsedComment} (member : output ∈ mergeFrom equalFold last comments) :
    countCommentLines output.content ≤ maxCommentLines ∨ output ∈ last.toList ++ comments := by
  induction comments generalizing last with
  | nil =>
      rw [mergeFrom] at member
      exact Or.inr (List.mem_append_left _ member)
  | cons comment rest ih =>
      rw [mergeFrom_cons] at member
      split at member
      · refine (ih member).imp_right fun found => ?_
        rcases List.mem_append.mp found with before | after
        · exact List.mem_append_left _ before
        · exact List.mem_append_right _ (List.mem_cons_of_mem _ after)
      · cases last with
        | none => exact ih member
        | some previous =>
            dsimp only at member
            split at member
            · rename_i merges
              rcases ih member with short | found
              · exact Or.inl short
              · rcases List.mem_cons.mp found with joined | after
                · rw [joined]
                  exact Or.inl (countCommentLines_absorb (fitsUnder_of_canMerge merges))
                · exact Or.inr (List.mem_cons_of_mem _ (List.mem_cons_of_mem _ after))
            · rcases List.mem_cons.mp member with first | later
              · exact Or.inr (List.mem_cons.mpr (Or.inl first))
              · exact (ih later).imp_right (List.mem_cons_of_mem _)

abbrev CommentGroup : Type := ParsedComment × List ParsedComment

def CommentGroup.joined (group : CommentGroup) : ParsedComment :=
  group.2.foldl ParsedComment.absorb group.1

def CommentGroup.members (group : CommentGroup) : List ParsedComment := group.1 :: group.2

theorem mergeFrom_groups (previous : ParsedComment) (comments : List ParsedComment) :
    ∃ (taken : List ParsedComment) (groups : List CommentGroup),
      mergeFrom equalFold (some previous) comments =
        taken.foldl ParsedComment.absorb previous :: groups.map CommentGroup.joined ∧
      taken ++ groups.flatMap CommentGroup.members =
        comments.filter (fun comment => !comment.isBlank) := by
  induction comments generalizing previous with
  | nil => exact ⟨[], [], rfl, rfl⟩
  | cons comment rest ih =>
      rw [mergeFrom_cons]
      by_cases empty : comment.isBlank = true
      · rw [if_pos empty, List.filter_cons_of_neg (by simp [empty])]
        exact ih previous
      · rw [if_neg empty, List.filter_cons_of_pos (by simp [empty])]
        dsimp only
        split
        · obtain ⟨taken, groups, merged, whole⟩ := ih (previous.absorb comment)
          refine ⟨comment :: taken, groups, merged, ?_⟩
          rw [List.cons_append, whole]
        · obtain ⟨taken, groups, merged, whole⟩ := ih comment
          refine ⟨[], (comment, taken) :: groups, ?_, ?_⟩
          · rw [merged]
            rfl
          · rw [List.nil_append, List.flatMap_cons, CommentGroup.members, List.cons_append, whole]

theorem mergeConsecutiveComments_groups (comments : List ParsedComment) :
    ∃ groups : List CommentGroup,
      mergeConsecutiveComments equalFold comments = groups.map CommentGroup.joined ∧
      groups.flatMap CommentGroup.members =
        comments.filter (fun comment => !comment.isBlank) := by
  unfold mergeConsecutiveComments
  induction comments with
  | nil => exact ⟨[], rfl, rfl⟩
  | cons comment rest ih =>
      rw [mergeFrom_cons]
      by_cases empty : comment.isBlank = true
      · rw [if_pos empty, List.filter_cons_of_neg (by simp [empty])]
        exact ih
      · rw [if_neg empty, List.filter_cons_of_pos (by simp [empty])]
        obtain ⟨taken, groups, merged, whole⟩ := mergeFrom_groups equalFold comment rest
        refine ⟨(comment, taken) :: groups, merged, ?_⟩
        rw [List.flatMap_cons, CommentGroup.members, List.cons_append, whole]

/-- The comments of the input that begin a comment of the output: neither blank nor
merged into the one before. -/
def standingFrom : Option ParsedComment → List ParsedComment → List ParsedComment
  | _, [] => []
  | last, comment :: rest =>
      if comment.isBlank then standingFrom last rest
      else
        match last with
        | none => comment :: standingFrom (some comment) rest
        | some previous =>
            if canMerge equalFold previous comment then
              standingFrom (some (previous.absorb comment)) rest
            else comment :: standingFrom (some comment) rest

def standingComments (comments : List ParsedComment) : List ParsedComment :=
  standingFrom equalFold none comments

end Kept

/-! ### Votes -/

section Votes

variable (users : Option UserResolver)

def VoteRecord.pair (record : VoteRecord) : (Bytes × PersonID) × VoteType :=
  ((record.personName, record.personID), record.vote)

theorem VoteRecord.pair_eq_iff (record : VoteRecord) (name : Bytes) (id : PersonID)
    (vote : VoteType) : record.pair = ((name, id), vote) ↔
      record.personName = name ∧ record.personID = id ∧ record.vote = vote := by
  unfold VoteRecord.pair
  rw [Prod.mk.injEq, Prod.mk.injEq, and_assoc]

def lastVote (name : Bytes) (comments : List ParsedComment) : Option (PersonID × VoteType) :=
  ((comments.filter fun comment =>
    comment.creatorName = name && comment.vote ≠ voteNeutral).getLast?).map fun comment =>
      (comment.personID users, comment.vote)

theorem lastVote_concat (name : Bytes) (comments : List ParsedComment) (comment : ParsedComment) :
    lastVote users name (comments ++ [comment]) =
      if comment.creatorName = name ∧ comment.vote ≠ voteNeutral then
        some (comment.personID users, comment.vote)
      else lastVote users name comments := by
  unfold lastVote
  rw [List.filter_append]
  by_cases counts : comment.creatorName = name ∧ comment.vote ≠ voteNeutral
  · rw [if_pos counts, List.filter_cons_of_pos (by simpa using counts), List.filter_nil,
      List.getLast?_concat]
    rfl
  · rw [if_neg counts, List.filter_cons_of_neg (by simpa using counts), List.filter_nil,
      List.append_nil]

/-- The votes hold one record for each name that voted, with its last vote. -/
structure VotesOf (comments : List ParsedComment) (votes : List VoteRecord) : Prop where
  single : (votes.map VoteRecord.personName).Nodup
  held : ∀ name id vote, ((name, id), vote) ∈ votes.map VoteRecord.pair ↔
    lastVote users name comments = some (id, vote)

theorem recordVote_names {votes : List VoteRecord} {parsed : ParsedComment}
    (single : (votes.map VoteRecord.personName).Nodup) :
    ((recordVote users votes parsed).map VoteRecord.personName).Nodup := by
  unfold recordVote
  split
  · exact single
  · split
    · have same : (votes.map fun record =>
          if record.personName = parsed.creatorName then
            { record with
              vote := parsed.vote, personID := parsed.personID users, createdAt := parsed.ctime }
          else record).map VoteRecord.personName = votes.map VoteRecord.personName := by
        rw [List.map_map]
        apply List.map_congr_left
        intro record _
        dsimp only [Function.comp_apply]
        split <;> rfl
      rw [same]
      exact single
    · rename_i fresh
      rw [List.map_append, List.nodup_append]
      refine ⟨single, List.nodup_singleton _, ?_⟩
      intro name member other last same
      rw [List.map_singleton, List.mem_singleton] at last
      obtain ⟨record, inside, named⟩ := List.mem_map.mp member
      apply fresh
      rw [List.any_eq_true]
      exact ⟨record, inside, decide_eq_true (named.trans (same.trans last))⟩

theorem mem_recordVote {votes : List VoteRecord} {parsed : ParsedComment}
    (counts : parsed.vote ≠ voteNeutral) (name : Bytes) (id : PersonID) (vote : VoteType) :
    ((name, id), vote) ∈ (recordVote users votes parsed).map VoteRecord.pair ↔
      if parsed.creatorName = name then (parsed.personID users, parsed.vote) = (id, vote)
      else ((name, id), vote) ∈ votes.map VoteRecord.pair := by
  unfold recordVote
  rw [if_neg counts]
  split
  · rename_i known
    obtain ⟨old, inside, named⟩ := List.any_eq_true.mp known
    have sameName : old.personName = parsed.creatorName := of_decide_eq_true named
    rw [List.map_map, List.mem_map]
    constructor
    · rintro ⟨record, member, shape⟩
      rw [Function.comp_apply] at shape
      split at shape
      · rename_i matched
        obtain ⟨sameName, sameID, sameVote⟩ := (VoteRecord.pair_eq_iff _ _ _ _).mp shape
        rw [if_pos (matched.symm.trans sameName), Prod.mk.injEq]
        exact ⟨sameID, sameVote⟩
      · rename_i other
        have recordName := ((VoteRecord.pair_eq_iff _ _ _ _).mp shape).1
        rw [if_neg fun same => other (recordName.trans same.symm)]
        exact List.mem_map.mpr ⟨record, member, shape⟩
    · intro holds
      split at holds
      · rename_i matched
        rw [Prod.mk.injEq] at holds
        refine ⟨old, inside, ?_⟩
        rw [Function.comp_apply, if_pos sameName, VoteRecord.pair_eq_iff]
        exact ⟨sameName.trans matched, holds⟩
      · rename_i other
        obtain ⟨record, member, shape⟩ := List.mem_map.mp holds
        refine ⟨record, member, ?_⟩
        have recordName := ((VoteRecord.pair_eq_iff _ _ _ _).mp shape).1
        rw [Function.comp_apply, if_neg fun same => other (same.symm.trans recordName), shape]
  · rename_i fresh
    rw [List.map_append, List.mem_append, List.map_singleton, List.mem_singleton]
    split
    · rename_i matched
      constructor
      · rintro (before | here)
        · obtain ⟨record, member, shape⟩ := List.mem_map.mp before
          have recordName := ((VoteRecord.pair_eq_iff _ _ _ _).mp shape).1
          exact absurd (List.any_eq_true.mpr
            ⟨record, member, decide_eq_true (recordName.trans matched.symm)⟩) fresh
        · rw [Prod.mk.injEq]
          exact ((VoteRecord.pair_eq_iff _ _ _ _).mp here.symm).2
      · intro same
        rw [Prod.mk.injEq] at same
        exact Or.inr ((VoteRecord.pair_eq_iff _ _ _ _).mpr ⟨matched, same⟩).symm
    · rename_i other
      constructor
      · rintro (before | here)
        · exact before
        · exact absurd ((VoteRecord.pair_eq_iff _ _ _ _).mp here.symm).1 other
      · exact Or.inl

theorem votesOf_convertVotes (comments : List ParsedComment) :
    VotesOf users comments (convertVotes users comments) := by
  induction comments using List.reverseRecOn with
  | nil =>
      refine ⟨List.nodup_nil, fun name id vote => ?_⟩
      simp [convertVotes, lastVote]
  | append_singleton comments comment ih =>
      unfold convertVotes at ih ⊢
      rw [List.foldl_concat]
      refine ⟨recordVote_names users ih.single, fun name id vote => ?_⟩
      rw [lastVote_concat]
      by_cases counts : comment.vote = voteNeutral
      · rw [recordVote, if_pos counts, if_neg fun both => both.2 counts]
        exact ih.held name id vote
      · rw [mem_recordVote users counts]
        by_cases matched : comment.creatorName = name
        · rw [if_pos matched, if_pos ⟨matched, counts⟩]
          exact Option.some_inj.symm
        · rw [if_neg matched, if_neg fun both => matched both.1]
          exact ih.held name id vote

theorem votesOf_pairs_nodup {comments : List ParsedComment} {votes : List VoteRecord}
    (counted : VotesOf users comments votes) : (votes.map VoteRecord.pair).Nodup := by
  have names : (votes.map VoteRecord.pair).map (fun pair => pair.1.1) =
      votes.map VoteRecord.personName := List.map_map
  exact List.Nodup.of_map (fun pair => pair.1.1) (names ▸ counted.single)

theorem countP_pair (votes : List VoteRecord) (counts : VoteType → Bool) :
    votes.countP (fun record => counts record.vote) =
      (votes.map VoteRecord.pair).countP (fun pair => counts pair.2) := by
  rw [List.countP_map]
  rfl

theorem convertParsedComments_votes_iff (left right : List ParsedComment) :
    ((∀ pair, pair ∈ (convertParsedComments left users).votes.map VoteRecord.pair ↔
        pair ∈ (convertParsedComments right users).votes.map VoteRecord.pair) ∧
      (convertParsedComments left users).upvotes = (convertParsedComments right users).upvotes ∧
      (convertParsedComments left users).downvotes =
        (convertParsedComments right users).downvotes) ↔
    ∀ name, lastVote users name left = lastVote users name right := by
  have leftCounted := votesOf_convertVotes users left
  have rightCounted := votesOf_convertVotes users right
  constructor
  · rintro ⟨pairs, _, _⟩ name
    apply Option.ext
    rintro ⟨id, vote⟩
    rw [← leftCounted.held, ← rightCounted.held]
    exact pairs ((name, id), vote)
  · intro same
    have pairs : ∀ pair, pair ∈ (convertVotes users left).map VoteRecord.pair ↔
        pair ∈ (convertVotes users right).map VoteRecord.pair := by
      rintro ⟨⟨name, id⟩, vote⟩
      rw [leftCounted.held, rightCounted.held, same]
    have shuffled : ((convertVotes users left).map VoteRecord.pair).Perm
        ((convertVotes users right).map VoteRecord.pair) :=
      (List.perm_ext_iff_of_nodup (votesOf_pairs_nodup users leftCounted)
        (votesOf_pairs_nodup users rightCounted)).mpr pairs
    refine ⟨pairs, ?_, ?_⟩
    · change (convertVotes users left).countP _ = (convertVotes users right).countP _
      rw [countP_pair _ (fun vote => vote = voteUp), countP_pair _ (fun vote => vote = voteUp)]
      exact shuffled.countP_eq _
    · change (convertVotes users left).countP _ = (convertVotes users right).countP _
      rw [countP_pair _ (fun vote => ¬ vote = voteUp),
        countP_pair _ (fun vote => ¬ vote = voteUp)]
      exact shuffled.countP_eq _

end Votes

/-! ### Merging and votes -/

section Faithful

variable (equalFold : Bytes → Bytes → Bool) (users : Option UserResolver)

def ParsedComment.ballot (comment : ParsedComment) : Bytes × PersonID × VoteType :=
  (comment.creatorName, comment.personID users, comment.vote)

theorem lastVote_eq_ballots (name : Bytes) (comments : List ParsedComment) :
    lastVote users name comments =
      (((comments.map (ParsedComment.ballot users)).filter fun ballot =>
        ballot.1 = name && ballot.2.2 ≠ voteNeutral).getLast?).map Prod.snd := by
  unfold lastVote
  rw [List.filter_map, List.getLast?_map, Option.map_map]
  rfl

theorem mergeFrom_ballots (last : Option ParsedComment) (comments : List ParsedComment) :
    (mergeFrom equalFold last comments).map (ParsedComment.ballot users) =
      (last.toList ++ standingFrom equalFold last comments).map
        (ParsedComment.ballot users) := by
  induction comments generalizing last with
  | nil =>
      rw [mergeFrom, standingFrom, List.append_nil]
  | cons comment rest ih =>
      rw [mergeFrom_cons, standingFrom.eq_def]
      dsimp only
      split
      · exact ih last
      · cases last with
        | none => exact ih (some comment)
        | some previous =>
            dsimp only
            split
            · exact ih (some (previous.absorb comment))
            · rw [List.map_cons, ih]
              rfl

theorem lastVote_mergeFrom (name : Bytes) (last : Option ParsedComment)
    (comments : List ParsedComment) :
    lastVote users name (mergeFrom equalFold last comments) =
      lastVote users name (last.toList ++ standingFrom equalFold last comments) := by
  rw [lastVote_eq_ballots, lastVote_eq_ballots, mergeFrom_ballots]

structure MergeFaithful (comments : List ParsedComment) : Prop where
  ordered : ∃ groups : List CommentGroup,
    mergeConsecutiveComments equalFold comments = groups.map CommentGroup.joined ∧
    groups.flatMap CommentGroup.members = comments.filter (fun comment => !comment.isBlank)
  short : ∀ output ∈ mergeConsecutiveComments equalFold comments,
    countCommentLines output.content ≤ maxCommentLines ∨ output ∈ comments
  lines : (mergeConsecutiveComments equalFold comments).flatMap
      (fun comment => writtenLines comment.content) =
    comments.flatMap (fun comment => writtenLines comment.content)
  votes : ∀ pair,
    pair ∈ (convertParsedComments (mergeConsecutiveComments equalFold comments) users).votes.map
        VoteRecord.pair ↔
      pair ∈ (convertParsedComments comments users).votes.map VoteRecord.pair
  upvotes : (convertParsedComments (mergeConsecutiveComments equalFold comments) users).upvotes =
    (convertParsedComments comments users).upvotes
  downvotes :
    (convertParsedComments (mergeConsecutiveComments equalFold comments) users).downvotes =
      (convertParsedComments comments users).downvotes

end Faithful

/-- A push without a word counts as a vote, but merging drops it. -/
def blankPush : ParsedComment :=
  { creatorName := utf8 "alice", ctime := 1700000000, commentType := utf8 "推",
    legacyType := legacyTypePush }

end Pttbbs.PostSvc
