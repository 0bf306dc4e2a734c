/-
When the rebuild agrees with a clean verification.

The verifier counts a vote under a key without a name, files a crosspost under the
number in its key, reads the parent as a signed number, and takes any encoding.  The
rebuild does none of this, and it fails where SQLite does not take a number.
-/

import Pttbbs.PostSvc.VerifyRebuild

namespace Pttbbs.PostSvc

open Pttbbs.Lib

/-! ### Counts -/

private theorem countP_eq_iff {Item : Type} {strict loose : Item → Bool} {items : List Item}
    (implied : ∀ item ∈ items, strict item = true → loose item = true) :
    items.countP loose = items.countP strict ↔
      ∀ item ∈ items, loose item = true → strict item = true := by
  induction items with
  | nil => simp
  | cons item rest ih =>
      have later := ih fun other member => implied other (List.mem_cons_of_mem _ member)
      have fewer : rest.countP strict ≤ rest.countP loose :=
        List.countP_mono_left fun other member =>
          implied other (List.mem_cons_of_mem _ member)
      rw [List.forall_mem_cons, ← later, List.countP_cons, List.countP_cons]
      have here := implied item List.mem_cons_self
      cases looseHere : loose item with
      | false =>
          cases strictHere : strict item with
          | false => simp
          | true => exact absurd (here strictHere) (by rw [looseHere]; decide)
      | true =>
          cases strictHere : strict item with
          | false =>
              simp only [reduceCtorEq, if_true, if_false, forall_const, false_and, iff_false]
              omega
          | true => simp

namespace Engine

theorem commentKey_cursor (id : UInt64) (entry : Bytes × Bytes) :
    ((if entry.1.head? = some letterC ∧ 9 ≤ entry.1.length then
        some (CursorEntry.mk (uint64 ((entry.1.drop 1).take 8)) entry.1 entry.2)
      else none).map (countedComment id)).getD false =
      (((decodeCommentKey entry.1).map Prod.fst).map (· == id)).getD false := by
  unfold decodeCommentKey
  by_cases wide : entry.1.length = 13 ∧ entry.1.head? = some letterC
  · rw [if_pos wide, if_pos ⟨wide.2, by omega⟩]
    simp only [Option.map_some, Option.getD_some, countedComment, wide.1, decide_true,
      Bool.true_and]
    exact (beq_eq_decide _ _).symm
  · rw [if_neg wide]
    by_cases shown : entry.1.head? = some letterC ∧ 9 ≤ entry.1.length
    · have other : ¬ entry.1.length = 13 := fun same => wide ⟨same, shown.1⟩
      simp [if_pos shown, countedComment, other]
    · rw [if_neg shown]
      rfl

theorem aggregateOf_comments (engine : Engine) (id : UInt64) :
    (aggregateOf id engine.cursors).comments = engine.commentedPosts.count id := by
  change (idCursor letterC engine.commentsDB).countP (countedComment id) = _
  unfold idCursor commentedPosts
  rw [List.count_eq_countP, List.countP_filterMap, List.countP_filterMap]
  apply List.countP_congr
  intro entry _
  rw [commentKey_cursor]

theorem aggregateOf_commentModified (engine : Engine) (id : UInt64) :
    (aggregateOf id engine.cursors).commentModified = engine.commentModified id := by
  unfold aggregateOf cursors idCursor commentModified
  dsimp only
  rw [List.filterMap_filterMap]
  congr 1
  apply List.filterMap_congr
  intro entry _
  unfold decodeCommentKey changesOf countedComment changedAt
  by_cases wide : entry.1.length = 13 ∧ entry.1.head? = some letterC
  · rw [if_pos wide, if_pos ⟨wide.2, by omega⟩]
    simp only [Option.bind_some, wide.1, decide_true, Bool.true_and, decide_eq_true_eq]
  · rw [if_neg wide]
    by_cases shown : entry.1.head? = some letterC ∧ 9 ≤ entry.1.length
    · have other : ¬ entry.1.length = 13 := fun same => wide ⟨same, shown.1⟩
      simp [if_pos shown, other]
    · rw [if_neg shown]
      rfl

theorem bareVoteKey_iff (key : Bytes) (id : UInt64) :
    (key.length = 9 ∧ key.head? = some letterV ∧ uint64 ((key.drop 1).take 8) = id) ↔
      key = encodeVoteKey id [] := by
  constructor
  · rintro ⟨length, head, number⟩
    cases key with
    | nil => cases head
    | cons letter tail =>
        have eight : tail.length = 8 := by simpa using length
        have whole : ((letter :: tail).drop 1).take 8 = tail := by
          rw [List.drop_one, List.tail_cons, List.take_of_length_le (le_of_eq eight)]
        rw [whole] at number
        rw [encodeVoteKey, List.append_nil, ← number, putUint64_uint64 eight,
          Option.some.inj head]
  · intro same
    subst same
    have whole : (putUint64 id).take 8 = putUint64 id := List.take_of_length_le (by simp)
    simp [encodeVoteKey, whole]

def seenVote (id : UInt64) (vote : VoteType) (entry : Bytes × Bytes) : Bool :=
  entry.1.head? = some letterV && 9 ≤ entry.1.length && uint64 ((entry.1.drop 1).take 8) = id &&
    voteOfValue entry.2 = vote

def namedVote (id : UInt64) (vote : VoteType) (entry : Bytes × Bytes) : Bool :=
  seenVote id vote entry && 10 ≤ entry.1.length

theorem cursorVotes_count (engine : Engine) (id : UInt64) (vote : VoteType) :
    engine.cursors.votes.countP (countedVote id vote) =
      engine.votesDB.entries.countP (seenVote id vote) := by
  change (idCursor letterV engine.votesDB).countP (countedVote id vote) = _
  unfold idCursor
  rw [List.countP_filterMap]
  apply List.countP_congr
  intro entry _
  unfold seenVote countedVote
  by_cases shown : entry.1.head? = some letterV ∧ 9 ≤ entry.1.length
  · simp [shown]
  · rw [if_neg shown]
    simp only [Option.map_none, Option.getD_none, Bool.and_eq_true, decide_eq_true_eq]
    tauto

theorem votedPosts_count (engine : Engine) (id : UInt64) (vote : VoteType) :
    (engine.votedPosts vote).count id = engine.votesDB.entries.countP (namedVote id vote) := by
  unfold votedPosts
  rw [List.count_eq_countP, List.countP_filterMap, List.countP_filter]
  apply List.countP_congr
  intro entry _
  unfold namedVote seenVote decodeVoteKey
  by_cases wide : 10 ≤ entry.1.length ∧ entry.1.head? = some letterV
  · have atLeast : 9 ≤ entry.1.length := by omega
    simp [wide, atLeast]
  · rw [if_neg wide]
    simp only [Option.map_none, Option.getD_none, Bool.false_and, Bool.and_eq_true,
      decide_eq_true_eq]
    tauto

theorem votes_agree_iff (engine : Engine) (id : UInt64) (vote : VoteType) :
    engine.cursors.votes.countP (countedVote id vote) = (engine.votedPosts vote).count id ↔
      ∀ value, engine.votesDB.get? (encodeVoteKey id []) = some value →
        voteOfValue value ≠ vote := by
  rw [cursorVotes_count, votedPosts_count, countP_eq_iff]
  · constructor
    · intro named value stored chosen
      obtain ⟨length, head, number⟩ := (bareVoteKey_iff (encodeVoteKey id []) id).mpr rfl
      have kept := named _ ((OrderedMap.get?_eq_some_iff _).mp stored)
        (by simp only [seenVote, head, length, number, chosen]; decide)
      simp [namedVote, length] at kept
    · intro unnamed entry member seen
      by_contra bare
      simp only [namedVote, seen, Bool.true_and, decide_eq_true_eq, not_le] at bare
      simp only [seenVote, Bool.and_eq_true, decide_eq_true_eq] at seen
      obtain ⟨⟨⟨head, atLeast⟩, number⟩, chosen⟩ := seen
      have key := (bareVoteKey_iff entry.1 id).mp ⟨by omega, head, number⟩
      apply unnamed entry.2 _ chosen
      rw [← key]
      exact (OrderedMap.get?_eq_some_iff _).mpr member
  · intro entry _ named
    exact (Bool.and_eq_true_iff.mp named).1

/-! ### Rows -/

theorem recount_of_zero (engine : Engine) (id : UInt64) (headers : Headers) :
    engine.recount id (rebuiltRow headers) =
      { rebuiltRow headers with
        upvotes := (engine.votedPosts voteUp).count id
        downvotes := (engine.votedPosts voteDown).count id
        numComments := engine.commentedPosts.count id
        numCrossposts := engine.crosspostSources.count id
        modified := if id ∈ engine.countedPosts then
            max (rebuiltRow headers).modified (engine.commentModified id)
          else (rebuiltRow headers).modified } := by
  unfold recount
  by_cases counted : id ∈ engine.countedPosts
  · rw [if_pos (List.contains_iff_mem.mpr counted), if_pos counted]
  · rw [if_neg (fun found => counted (List.contains_iff_mem.mp found)), if_neg counted]
    unfold countedPosts at counted
    simp only [List.mem_append, not_or] at counted
    obtain ⟨⟨⟨comments, upvotes⟩, downvotes⟩, crossposts⟩ := counted
    rw [List.count_eq_zero_of_not_mem comments, List.count_eq_zero_of_not_mem upvotes,
      List.count_eq_zero_of_not_mem downvotes, List.count_eq_zero_of_not_mem crossposts]
    rfl

theorem commentModified_of_uncounted (engine : Engine) {id : UInt64}
    (uncounted : id ∉ engine.countedPosts) : engine.commentModified id = 0 := by
  unfold commentModified
  rw [List.filterMap_eq_nil_iff.mpr]
  · rfl
  · intro entry member
    cases decoded : decodeCommentKey entry.1 with
    | none => rfl
    | some key =>
        rw [Option.bind_some, if_neg]
        intro same
        apply uncounted
        unfold countedPosts commentedPosts
        simp only [List.mem_append]
        refine Or.inl (Or.inl (Or.inl (List.mem_filterMap.mpr ⟨entry, member, ?_⟩)))
        rw [decoded, Option.map_some, same]

theorem verifiedModified_eq (headers : Headers) (found : PostAggregate) :
    verifiedModified headers found =
      max (rebuiltRow headers).modified found.commentModified := by
  change (if (rebuiltRow headers).modified < found.commentModified then found.commentModified
    else (rebuiltRow headers).modified) = _
  by_cases later : (rebuiltRow headers).modified < found.commentModified
  · rw [if_pos later, max_eq_right (le_of_lt later)]
  · rw [if_neg later, max_eq_left (not_lt.mp later)]

/-- What makes the rebuilt row another one although the verifier found no difference. -/
structure RowAgrees (engine : Engine) (id : UInt64) (row : PostRow) (headers : Headers) :
    Prop where
  encoding : row.encoding = utf8Name
  parent : parseUint64 (field headers "ParentID") =
    (parseInt64 (field headers "ParentID")).toUInt64
  time : id ∈ engine.countedPosts ∨ 0 ≤ (rebuiltRow headers).modified
  votes : ∀ value, engine.votesDB.get? (encodeVoteKey id []) = some value →
    voteOfValue value = voteNeutral
  crossposts : (engine.cursors.crossposts.countP fun entry => entry.postID = id) =
    engine.crosspostSources.count id

theorem voteOfValue_cases (value : Bytes) :
    voteOfValue value = voteUp ∨ voteOfValue value = voteDown ∨
      voteOfValue value = voteNeutral := by
  cases value with
  | nil => exact Or.inr (Or.inr rfl)
  | cons byte rest =>
      unfold voteOfValue voteOfByte
      dsimp only
      split
      · exact Or.inl rfl
      · split
        · exact Or.inr (Or.inl rfl)
        · exact Or.inr (Or.inr rfl)

theorem recount_eq_row_iff {engine : Engine} {id : UInt64} {row : PostRow} {headers : Headers}
    (compared : Compared row headers (aggregateOf id engine.cursors)) :
    engine.recount id (rebuiltRow headers) = row ↔ RowAgrees engine id row headers := by
  rw [recount_of_zero]
  have comments := aggregateOf_comments engine id
  have changed := aggregateOf_commentModified engine id
  have numComments := compared.numComments
  rw [comments] at numComments
  have modified := compared.modified
  rw [verifiedModified_eq, changed] at modified
  constructor
  · intro same
    have field_eq : ∀ {Value : Type} (read : PostRow → Value), read _ = read row :=
      fun read => congrArg read same
    refine ⟨(field_eq PostRow.encoding).symm, ?_, ?_, ?_, ?_⟩
    · rw [← compared.parentID]
      exact field_eq PostRow.parentID
    · by_cases counted : id ∈ engine.countedPosts
      · exact Or.inl counted
      · right
        have time := field_eq PostRow.modified
        rw [modified, if_neg counted, commentModified_of_uncounted _ counted] at time
        rw [time]
        exact le_max_right _ _
    · intro value stored
      have upvotes := field_eq PostRow.upvotes
      have downvotes := field_eq PostRow.downvotes
      rw [compared.upvotes] at upvotes
      rw [compared.downvotes] at downvotes
      have notUp := (votes_agree_iff engine id voteUp).mp (Int.ofNat.inj upvotes).symm _ stored
      have notDown :=
        (votes_agree_iff engine id voteDown).mp (Int.ofNat.inj downvotes).symm _ stored
      exact ((voteOfValue_cases value).resolve_left notUp).resolve_left notDown
    · have crossposts := field_eq PostRow.numCrossposts
      rw [compared.numCrossposts] at crossposts
      exact (Int.ofNat.inj crossposts).symm
  · intro agrees
    have upvotes := (votes_agree_iff engine id voteUp).mpr fun value stored chosen =>
      absurd ((agrees.votes value stored).symm.trans chosen) (by decide)
    have downvotes := (votes_agree_iff engine id voteDown).mpr fun value stored chosen =>
      absurd ((agrees.votes value stored).symm.trans chosen) (by decide)
    have time : (if id ∈ engine.countedPosts then
        max (rebuiltRow headers).modified (engine.commentModified id)
        else (rebuiltRow headers).modified) = row.modified := by
      rw [modified]
      by_cases counted : id ∈ engine.countedPosts
      · rw [if_pos counted]
      · rw [if_neg counted, commentModified_of_uncounted _ counted]
        exact (max_eq_left (agrees.time.resolve_left counted)).symm
    rw [time, ← upvotes, ← downvotes, ← agrees.crossposts]
    have parent := compared.parentID.trans agrees.parent.symm
    obtain ⟨title, _modified, community, postFile, creatorName, _parentID, creatorID, createdAt,
      filemode, money, deletion, ups, downs, _numComments, numCrossposts⟩ := compared
    obtain ⟨encoding⟩ := agrees
    cases row
    dsimp only at *
    subst_vars
    rfl

/-! ### When the rebuild goes through -/

structure EntryBindable (entry : Bytes × Bytes) : Prop where
  crosspost : entry.1.head? = some letterX →
    bindable (decodeRFC822Crosspost entry.2).sourcePostID = true ∧
      bindable (decodeRFC822Crosspost entry.2).creatorID = true
  post : ∀ id, decodePostKey entry.1 = some id →
    bindable id = true ∧ MetaDB.rowBindable (rebuiltRow (decodeRFC822Post entry.2).1) = true

def crosspostCount (entries : List (Bytes × Bytes)) : Nat :=
  entries.countP fun entry => entry.1.head? = some letterX

def HasRoom (metaDB : MetaDB) (more : Nat) : Prop :=
  0 < more → metaDB.crosspostsSequence.toNat + more < 2 ^ 63

theorem nextID_ok {sequence id : UInt64} (next : MetaDB.nextID sequence = .ok id) :
    id.toNat = sequence.toNat + 1 ∧ id.toNat < 2 ^ 63 := by
  unfold MetaDB.nextID at next
  split at next
  · rename_i room
    rw [UInt64.lt_iff_toNat_lt] at room
    have limit : (0x7fffffffffffffff : UInt64).toNat = 2 ^ 63 - 1 := rfl
    rw [limit] at room
    rw [← Except.ok.inj next, UInt64.toNat_add]
    have unit : (1 : UInt64).toNat = 1 := rfl
    rw [unit, Nat.mod_eq_of_lt (by omega)]
    omega
  · cases next

theorem nextID_of_room {sequence : UInt64} (room : sequence.toNat + 1 < 2 ^ 63) :
    MetaDB.nextID sequence = .ok (sequence + 1) := by
  unfold MetaDB.nextID
  rw [if_pos]
  rw [UInt64.lt_iff_toNat_lt]
  have limit : (0x7fffffffffffffff : UInt64).toNat = 2 ^ 63 - 1 := rfl
  omega

theorem restoreEntry_needs {metaDB after : MetaDB} {entry : Bytes × Bytes}
    (restored : restoreEntry metaDB entry = .ok after) :
    EntryBindable entry ∧ ∀ more, HasRoom after more →
      HasRoom metaDB ((if entry.1.head? = some letterX then 1 else 0) + more) := by
  unfold restoreEntry at restored
  by_cases crosspost : entry.1.head? = some letterX
  · rw [if_pos crosspost] at restored
    cases inserted : metaDB.insertCrosspost (crosspostRow (decodeRFC822Crosspost entry.2)) with
    | error failure =>
        rw [inserted] at restored
        cases restored
    | ok result =>
        rw [inserted] at restored
        cases restored
        obtain ⟨next, afterEq, bound⟩ := MetaDB.insertCrosspost_ok inserted
        refine ⟨⟨fun _ => bound, ?_⟩, ?_⟩
        · intro id decoded
          rw [decodePostKey_eq_some_iff.mp decoded, encodePostKey_head] at crosspost
          exact absurd crosspost (by decide)
        · intro more room _some
          rw [if_pos crosspost]
          obtain ⟨following, below⟩ := nextID_ok next
          have sequence : result.1.crosspostsSequence = result.2 := by rw [afterEq]
          unfold HasRoom at room
          rw [sequence] at room
          by_cases none : more = 0
          · omega
          · have := room (Nat.pos_of_ne_zero none)
            omega
  · rw [if_neg crosspost] at restored
    rw [if_neg crosspost]
    cases decoded : decodePostKey entry.1 with
    | none =>
        rw [decoded] at restored
        cases restored
        exact ⟨⟨fun head => absurd head crosspost, fun id isPost => by
          rw [decoded] at isPost; cases isPost⟩, fun more room => by rwa [Nat.zero_add]⟩
    | some id =>
        rw [decoded] at restored
        cases inserted : metaDB.insertPost (some id)
            (rebuiltRow (decodeRFC822Post entry.2).1) with
        | error failure =>
            simp only [inserted] at restored
            cases restored
        | ok result =>
            simp only [inserted] at restored
            cases restored
            obtain ⟨afterEq, choice, _free, _file, bound⟩ := MetaDB.insertPost_ok inserted
            refine ⟨⟨fun head => absurd head crosspost, ?_⟩, ?_⟩
            · intro other isPost
              rw [decoded] at isPost
              cases isPost
              exact ⟨(MetaDB.chooseID_some choice).2, bound⟩
            · intro more room
              rw [Nat.zero_add]
              have sequence : result.1.crosspostsSequence = metaDB.crosspostsSequence := by
                rw [afterEq]
                rfl
              unfold HasRoom at room ⊢
              rwa [sequence] at room

theorem restoreEntries_needs {metaDB after : MetaDB} {entries : List (Bytes × Bytes)}
    (restored : restoreEntries metaDB entries = .ok after) :
    (∀ entry ∈ entries, EntryBindable entry) ∧ HasRoom metaDB (crosspostCount entries) := by
  induction entries generalizing metaDB with
  | nil => exact ⟨nofun, fun none => absurd none (lt_irrefl 0)⟩
  | cons entry rest ih =>
      unfold restoreEntries at restored
      cases first : restoreEntry metaDB entry with
      | error failure =>
          rw [first] at restored
          cases restored
      | ok between =>
          rw [first] at restored
          obtain ⟨laterBound, laterRoom⟩ := ih restored
          obtain ⟨bound, room⟩ := restoreEntry_needs first
          refine ⟨List.forall_mem_cons.mpr ⟨bound, laterBound⟩, ?_⟩
          have all := room _ laterRoom
          unfold crosspostCount at all ⊢
          rw [List.countP_cons, Nat.add_comm]
          simpa only [decide_eq_true_eq] using all

def SameFile (left right : PostRow) : Prop :=
  left.community = right.community ∧ left.postFile = right.postFile

structure FreeFor (metaDB : MetaDB) (id : UInt64) (row : PostRow) : Prop where
  id : metaDB.posts.get? id = none
  file : ∀ other stored, metaDB.posts.get? other = some stored → ¬ SameFile stored row

theorem insertPost_of_free {metaDB : MetaDB} {id : UInt64} {row : PostRow}
    (free : FreeFor metaDB id row) (bound : bindable id = true)
    (rowBound : MetaDB.rowBindable row = true) :
    metaDB.insertPost (some id) row = .ok (metaDB.putPost id row, id) := by
  have noFile : metaDB.findFile row.community row.postFile = none := by
    cases found : metaDB.findFile row.community row.postFile with
    | none => rfl
    | some other =>
        obtain ⟨stored, present, same⟩ := MetaDB.findFile_some found
        exact absurd same (free.file other stored present)
  have chosen : MetaDB.chooseID metaDB.postsSequence (some id) = .ok id := if_pos bound
  unfold MetaDB.insertPost
  rw [if_pos rowBound, chosen]
  dsimp only
  rw [free.id, noFile]
  rfl

/-- Two records that are not the same post name different files. -/
def FilesDiffer (left right : Bytes × Bytes) : Prop :=
  ∀ leftID rightID, decodePostKey left.1 = some leftID → decodePostKey right.1 = some rightID →
    leftID ≠ rightID ∧ ¬ SameFile (rebuiltRow (decodeRFC822Post left.2).1)
      (rebuiltRow (decodeRFC822Post right.2).1)

theorem restoreEntry_succeeds {metaDB : MetaDB} {entry : Bytes × Bytes}
    (bound : EntryBindable entry)
    (room : HasRoom metaDB (if entry.1.head? = some letterX then 1 else 0))
    (free : ∀ id, decodePostKey entry.1 = some id →
      FreeFor metaDB id (rebuiltRow (decodeRFC822Post entry.2).1)) :
    ∃ after, restoreEntry metaDB entry = .ok after ∧
      after.crosspostsSequence.toNat = metaDB.crosspostsSequence.toNat +
        (if entry.1.head? = some letterX then 1 else 0) := by
  unfold restoreEntry
  by_cases crosspost : entry.1.head? = some letterX
  · rw [if_pos crosspost] at room
    rw [if_pos crosspost, if_pos crosspost]
    have next := nextID_of_room (room Nat.one_pos)
    have inserted : metaDB.insertCrosspost (crosspostRow (decodeRFC822Crosspost entry.2)) =
        .ok ({ metaDB with
          crossposts := metaDB.crossposts.set (metaDB.crosspostsSequence + 1)
            (crosspostRow (decodeRFC822Crosspost entry.2))
          crosspostsSequence := metaDB.crosspostsSequence + 1 },
          metaDB.crosspostsSequence + 1) := by
      have bothBound := Bool.and_eq_true_iff.mpr (bound.crosspost crosspost)
      unfold MetaDB.insertCrosspost crosspostRow
      dsimp only
      rw [if_pos bothBound, next]
    rw [inserted]
    exact ⟨_, rfl, (nextID_ok next).1⟩
  · rw [if_neg crosspost, if_neg crosspost]
    cases decoded : decodePostKey entry.1 with
    | none => exact ⟨metaDB, rfl, rfl⟩
    | some id =>
        obtain ⟨idBound, rowBound⟩ := bound.post id decoded
        dsimp only
        rw [insertPost_of_free (free id decoded) idBound rowBound]
        exact ⟨_, rfl, rfl⟩

theorem restoreEntries_succeeds {metaDB : MetaDB} {entries : List (Bytes × Bytes)}
    (bound : ∀ entry ∈ entries, EntryBindable entry)
    (room : HasRoom metaDB (crosspostCount entries))
    (differ : entries.Pairwise FilesDiffer)
    (free : ∀ entry ∈ entries, ∀ id, decodePostKey entry.1 = some id →
      FreeFor metaDB id (rebuiltRow (decodeRFC822Post entry.2).1)) :
    ∃ after, restoreEntries metaDB entries = .ok after := by
  induction entries generalizing metaDB with
  | nil => exact ⟨metaDB, rfl⟩
  | cons entry rest ih =>
      obtain ⟨differHere, differLater⟩ := List.pairwise_cons.mp differ
      have counted : crosspostCount (entry :: rest) =
          crosspostCount rest + if entry.1.head? = some letterX then 1 else 0 := by
        unfold crosspostCount
        rw [List.countP_cons]
        simp only [decide_eq_true_eq]
      rw [counted] at room
      obtain ⟨after, first, sequence⟩ := restoreEntry_succeeds (bound entry List.mem_cons_self)
        (fun some => by have := room (by omega); omega)
        (free entry List.mem_cons_self)
      unfold restoreEntries
      rw [first]
      apply ih (fun other member => bound other (List.mem_cons_of_mem _ member)) _ differLater
      · intro other member id decoded
        obtain ⟨idFree, fileFree⟩ := free other (List.mem_cons_of_mem _ member) id decoded
        have rows := restoreEntry_posts first
        constructor
        · rw [rows id, if_neg, idFree]
          intro same
          exact (differHere other member id id (decodePostKey_eq_some_iff.mpr same) decoded).1 rfl
        · intro number stored present
          rw [rows number] at present
          by_cases same : entry.1 = encodePostKey number
          · rw [if_pos same] at present
            cases present
            exact (differHere other member number id (decodePostKey_eq_some_iff.mpr same)
              decoded).2
          · rw [if_neg same] at present
            exact fileFree number stored present
      · intro some
        have := room (by omega)
        omega

/-! ### A rebuild after a clean report -/

def FilesUnique (metaDB : MetaDB) : Prop :=
  ∀ leftID left rightID right, metaDB.posts.get? leftID = some left →
    metaDB.posts.get? rightID = some right → SameFile left right → leftID = rightID

def RebuildKeeps (engine : Engine) : Prop :=
  ∃ after counts, engine.rebuildSQLiteFromPebble = (after, .ok counts) ∧
    after.metaDB.posts = engine.metaDB.posts

/-- The content has nothing that only the rebuild would notice. -/
structure NoBlindSpot (engine : Engine) : Prop where
  rows : ∀ id row value, engine.metaDB.posts.get? id = some row →
    engine.postsDB.get? (encodePostKey id) = some value →
      RowAgrees engine id row (decodeRFC822Post value).1
  persons : ∀ id value, engine.postsDB.get? (encodePostKey id) = some value →
    bindable (parseUint64 (field (decodeRFC822Post value).1 "CreatorID")) = true ∧
      bindable (deletionFromRFC822 (decodeRFC822Post value).1).modPersonID = true
  crossposts : ∀ entry ∈ engine.postsDB.entries, entry.1.head? = some letterX →
    bindable (decodeRFC822Crosspost entry.2).sourcePostID = true ∧
      bindable (decodeRFC822Crosspost entry.2).creatorID = true
  room : HasRoom engine.metaDB (crosspostCount engine.postsDB.entries)
  last : lastNumber ∉ engine.countedPosts

theorem rebuild_needs {engine after : Engine} {counts : Nat × Nat}
    (rebuilt : engine.rebuildSQLiteFromPebble = (after, .ok counts)) :
    (∀ entry ∈ engine.postsDB.entries, EntryBindable entry) ∧
      HasRoom engine.metaDB (crosspostCount engine.postsDB.entries) ∧
      ∀ id ∈ engine.countedPosts, bindable id = true := by
  unfold rebuildSQLiteFromPebble at rebuilt
  cases restored : restoreEntries { engine.metaDB with
      posts := OrderedMap.empty, crossposts := OrderedMap.empty } engine.postsDB.entries with
  | error failure =>
      simp only [restored] at rebuilt
      cases rebuilt
  | ok metaDB =>
      simp only [restored] at rebuilt
      split at rebuilt
      · rename_i all
        obtain ⟨bound, room⟩ := restoreEntries_needs restored
        exact ⟨bound, room, List.all_eq_true.mp all⟩
      · cases rebuilt

theorem rebuild_succeeds {engine : Engine}
    (restored : ∃ metaDB, restoreEntries { engine.metaDB with
      posts := OrderedMap.empty, crossposts := OrderedMap.empty } engine.postsDB.entries =
        .ok metaDB)
    (bound : ∀ id ∈ engine.countedPosts, bindable id = true) :
    ∃ after counts, engine.rebuildSQLiteFromPebble = (after, .ok counts) := by
  obtain ⟨metaDB, done⟩ := restored
  unfold rebuildSQLiteFromPebble
  simp only [done]
  rw [if_pos (List.all_eq_true.mpr bound)]
  exact ⟨_, _, rfl⟩

theorem postEntry_stored {db : Pebble} {entry : Bytes × Bytes} (member : entry ∈ db.entries)
    {id : UInt64} (decoded : decodePostKey entry.1 = some id) :
    db.get? (encodePostKey id) = some entry.2 := by
  rw [← decodePostKey_eq_some_iff.mp decoded]
  exact (OrderedMap.get?_eq_some_iff _).mpr member

theorem entries_filesDiffer {engine : Engine} (unique : FilesUnique engine.metaDB)
    (verified : Verified engine) : engine.postsDB.entries.Pairwise FilesDiffer := by
  have members : engine.postsDB.entries.Pairwise fun left right =>
      left.1 < right.1 ∧ left ∈ engine.postsDB.entries ∧ right ∈ engine.postsDB.entries := by
    apply engine.postsDB.ordered.imp_of_mem
    intro left right leftMember rightMember less
    exact ⟨less, leftMember, rightMember⟩
  apply members.imp
  rintro left right ⟨less, leftMember, rightMember⟩ leftID rightID leftDecoded rightDecoded
  have different : leftID ≠ rightID := by
    intro same
    rw [decodePostKey_eq_some_iff.mp leftDecoded, decodePostKey_eq_some_iff.mp rightDecoded,
      same] at less
    exact lt_irrefl _ less
  refine ⟨different, ?_⟩
  intro sameFile
  have leftStored := postEntry_stored leftMember leftDecoded
  have rightStored := postEntry_stored rightMember rightDecoded
  obtain ⟨leftRow, leftPresent⟩ := verified.records _ _ leftStored
  obtain ⟨rightRow, rightPresent⟩ := verified.records _ _ rightStored
  obtain ⟨_, _, leftValue, leftRecord, leftCompared⟩ := verified.rows _ _ leftPresent
  obtain ⟨_, _, rightValue, rightRecord, rightCompared⟩ := verified.rows _ _ rightPresent
  cases leftStored.symm.trans leftRecord
  cases rightStored.symm.trans rightRecord
  apply different
  apply unique _ _ _ _ leftPresent rightPresent
  constructor
  · rw [leftCompared.community, rightCompared.community]
    exact sameFile.1
  · rw [leftCompared.postFile, rightCompared.postFile]
    exact sameFile.2

theorem entries_bindable {engine : Engine} (verified : Verified engine)
    (clear : NoBlindSpot engine) : ∀ entry ∈ engine.postsDB.entries, EntryBindable entry := by
  intro entry member
  refine ⟨clear.crossposts entry member, ?_⟩
  intro id decoded
  have stored := postEntry_stored member decoded
  obtain ⟨row, present⟩ := verified.records _ _ stored
  obtain ⟨number, parent, value, record, compared⟩ := verified.rows _ _ present
  cases stored.symm.trans record
  obtain ⟨creator, moderator⟩ := clear.persons _ _ stored
  have agrees := clear.rows _ _ _ present stored
  refine ⟨number, ?_⟩
  rw [compared.parentID, ← agrees.parent] at parent
  unfold MetaDB.rowBindable rebuiltRow
  rw [Bool.and_eq_true, Bool.and_eq_true]
  exact ⟨⟨parent, creator⟩, moderator⟩

theorem countedPosts_bindable {engine : Engine} (verified : Verified engine)
    (clear : NoBlindSpot engine) : ∀ id ∈ engine.countedPosts, bindable id = true := by
  intro id counted
  have notLast : id ≠ lastNumber := by
    intro same
    rw [same] at counted
    exact clear.last counted
  have ofVote : ∀ vote, id ∈ engine.votedPosts vote → bindable id = true := by
    intro vote voted
    unfold votedPosts at voted
    obtain ⟨entry, member, decoded⟩ := List.mem_filterMap.mp voted
    unfold decodeVoteKey at decoded
    by_cases wide : 10 ≤ entry.1.length ∧ entry.1.head? = some letterV
    · rw [if_pos wide, Option.map_some] at decoded
      have number := Option.some.inj decoded
      have seen : CursorEntry.mk id entry.1 entry.2 ∈ engine.cursors.votes := by
        refine List.mem_filterMap.mpr ⟨entry, (List.mem_filter.mp member).1, ?_⟩
        rw [if_pos ⟨wide.2, by omega⟩, ← number]
      exact (verified.votes _ seen).resolve_left notLast
    · rw [if_neg wide] at decoded
      cases decoded
  unfold countedPosts at counted
  simp only [List.mem_append] at counted
  rcases counted with ((comment | up) | down) | crosspost
  · unfold commentedPosts at comment
    obtain ⟨entry, member, decoded⟩ := List.mem_filterMap.mp comment
    unfold decodeCommentKey at decoded
    by_cases wide : entry.1.length = 13 ∧ entry.1.head? = some letterC
    · rw [if_pos wide, Option.map_some] at decoded
      have number := Option.some.inj decoded
      have seen : CursorEntry.mk id entry.1 entry.2 ∈ engine.cursors.comments := by
        refine List.mem_filterMap.mpr ⟨entry, member, ?_⟩
        rw [if_pos ⟨wide.2, by omega⟩, ← number]
      exact (verified.comments _ seen wide.1).resolve_left notLast
    · rw [if_neg wide] at decoded
      cases decoded
  · exact ofVote voteUp up
  · exact ofVote voteDown down
  · unfold crosspostSources at crosspost
    obtain ⟨entry, member, source⟩ := List.mem_map.mp crosspost
    obtain ⟨inside, head⟩ := List.mem_filter.mp member
    rw [← source]
    exact (clear.crossposts entry inside (of_decide_eq_true head)).1

/-- After a clean report the rebuild is without effect exactly when the content has
nothing that the verifier passes over. -/
theorem clean_rebuildKeeps_iff {engine : Engine} (unique : FilesUnique engine.metaDB)
    (clean : engine.compareMetaWithPebble.Clean) :
    RebuildKeeps engine ↔ NoBlindSpot engine := by
  have verified := verified_of_clean clean
  constructor
  · rintro ⟨after, counts, rebuilt, kept⟩
    obtain ⟨bound, room, counted⟩ := rebuild_needs rebuilt
    have stored : ∀ id value, engine.postsDB.get? (encodePostKey id) = some value →
        (encodePostKey id, value) ∈ engine.postsDB.entries :=
      fun id value => (OrderedMap.get?_eq_some_iff _).mp
    refine ⟨?_, ?_, ?_, room, ?_⟩
    · intro id row value present record
      obtain ⟨_, _, other, otherRecord, compared⟩ := verified.rows _ _ present
      cases record.symm.trans otherRecord
      have rows := rebuild_posts rebuilt id
      rw [kept, present, record] at rows
      exact (recount_eq_row_iff compared).mp (Option.some.inj rows).symm
    · intro id value record
      have numbers := ((bound _ (stored id value record)).post id
        (decodePostKey_encodePostKey id)).2
      unfold MetaDB.rowBindable at numbers
      rw [Bool.and_eq_true, Bool.and_eq_true] at numbers
      exact ⟨numbers.1.2, numbers.2⟩
    · exact fun entry member => (bound entry member).crosspost
    · intro last
      exact absurd (counted _ last) (by decide)
  · intro clear
    have restored := restoreEntries_succeeds (entries_bindable verified clear)
      (show HasRoom { engine.metaDB with
        posts := OrderedMap.empty, crossposts := OrderedMap.empty } _ from clear.room)
      (entries_filesDiffer unique verified)
      (fun _ _ _ _ => ⟨rfl, fun _ _ found => by cases found⟩)
    obtain ⟨after, counts, rebuilt⟩ := rebuild_succeeds restored
      (countedPosts_bindable verified clear)
    refine ⟨after, counts, rebuilt, OrderedMap.ext_get? ?_⟩
    intro id
    rw [rebuild_posts rebuilt id]
    cases record : engine.postsDB.get? (encodePostKey id) with
    | none =>
        cases present : engine.metaDB.posts.get? id with
        | none => rfl
        | some row =>
            obtain ⟨_, _, value, stored, _⟩ := verified.rows _ _ present
            rw [record] at stored
            cases stored
    | some value =>
        obtain ⟨row, present⟩ := verified.records _ _ record
        obtain ⟨_, _, other, stored, compared⟩ := verified.rows _ _ present
        cases record.symm.trans stored
        rw [Option.map_some, present,
          (recount_eq_row_iff compared).mpr (clear.rows _ _ _ present record)]

section Voted

def votedItem (name : Bytes) : ImportedPostData where
  post := { community := utf8 "Test", postFile := utf8 "M.1.A", title := utf8 "t",
            creatorName := utf8 "alice", createdAt := 100, modified := 100, upvotes := 1 }
  votes := [{ personName := name, vote := voteUp, createdAt := 101 }]

def votedOnce (name : Bytes) : Engine :=
  (({} : Engine).importPostBatch {} [votedItem name]).1

def votedRow (name : Bytes) : PostRow := importedRow (votedItem name).prepared

theorem votedOnce_rows (name : Bytes) :
    (votedOnce name).metaDB.posts.entries = [(1, votedRow name)] := rfl

theorem votedOnce_records (name : Bytes) : (votedOnce name).postsDB.entries =
    [(encodePostKey 1, encodeRFC822Post { (votedItem name).prepared with id := 1 })] := rfl

theorem votedOnce_row {name : Bytes} {id : UInt64} {row : PostRow}
    (present : (votedOnce name).metaDB.posts.get? id = some row) :
    id = 1 ∧ row = votedRow name := by
  rw [OrderedMap.get?_eq_some_iff, votedOnce_rows, List.mem_singleton] at present
  exact ⟨congrArg Prod.fst present, congrArg Prod.snd present⟩

theorem votedOnce_unique (name : Bytes) : FilesUnique (votedOnce name).metaDB := by
  intro leftID left rightID right leftPresent rightPresent _same
  rw [(votedOnce_row leftPresent).1, (votedOnce_row rightPresent).1]

/-- A vote without a name is counted by the verifier and not by the rebuild. -/
theorem unnamed_vote_lost_by_rebuild :
    ¬ ∀ engine : Engine, FilesUnique engine.metaDB → engine.compareMetaWithPebble.Clean →
      RebuildKeeps engine := by
  intro all
  obtain ⟨after, counts, rebuilt, kept⟩ :=
    all (votedOnce []) (votedOnce_unique []) (by decide +kernel)
  have changed : (votedOnce []).rebuildSQLiteFromPebble.1.metaDB.posts ≠
      (votedOnce []).metaDB.posts := by
    decide +kernel
  rw [rebuilt] at changed
  exact changed kept

theorem named_vote_kept_by_rebuild : RebuildKeeps (votedOnce (utf8 "bob")) := by
  refine (clean_rebuildKeeps_iff (votedOnce_unique _) (by decide +kernel)).mpr ?_
  have record : ∀ {id value}, (votedOnce (utf8 "bob")).postsDB.get? (encodePostKey id) =
      some value → value = encodeRFC822Post { (votedItem (utf8 "bob")).prepared with id := 1 } := by
    intro id value stored
    rw [OrderedMap.get?_eq_some_iff, votedOnce_records, List.mem_singleton] at stored
    exact congrArg Prod.snd stored
  have noCrossposts : crosspostCount (votedOnce (utf8 "bob")).postsDB.entries = 0 := by decide
  refine ⟨?_, ?_, ?_, fun some => absurd some (by rw [noCrossposts]; decide), by decide⟩
  · intro id row value present stored
    obtain ⟨rfl, rfl⟩ := votedOnce_row present
    rw [record stored]
    refine ⟨rfl, by decide +kernel, by decide +kernel, ?_, by decide +kernel⟩
    have none : (votedOnce (utf8 "bob")).votesDB.get? (encodeVoteKey 1 []) = none := by
      decide
    rw [none]
    nofun
  · intro id value stored
    rw [record stored]
    decide +kernel
  · rw [votedOnce_records]
    intro entry member head
    rw [List.mem_singleton.mp member, encodePostKey_head] at head
    exact absurd head (by decide)

end Voted

end Engine

end Pttbbs.PostSvc
