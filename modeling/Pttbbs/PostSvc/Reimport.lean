/-
Importing a post that the store already has.

The statement of the import changes the row in place, and the records of the item are
written over those with the same keys.  What the item has no record for stays.
-/

import Pttbbs.PostSvc.Frame
import Pttbbs.PostSvc.Tables
import Pttbbs.Lib.Runs

namespace Pttbbs.PostSvc

open Pttbbs.Lib

/-! ### What a store holds of a post -/

def CrosspostRow.unnumbered (row : CrosspostRow) : CrosspostRow := { row with sourcePostID := 0 }

def CrosspostRecord.unnumbered (record : CrosspostRecord) : CrosspostRecord :=
  { record with sourcePostID := 0 }

structure PostView where
  row : Option PostRow
  comments : UInt32 → Option Bytes
  votes : Bytes → Option Bytes
  crossposts : List CrosspostRow
  crosspostRecords : UInt32 → Option CrosspostRecord

namespace MetaDB

def crosspostsOf (metaDB : MetaDB) (id : UInt64) : List CrosspostRow :=
  (metaDB.crossposts.entries.map Prod.snd).filter fun row => row.sourcePostID = id

end MetaDB

namespace Engine

def postView (engine : Engine) (id : UInt64) : PostView where
  row := engine.metaDB.posts.get? id
  comments sequence := engine.commentsDB.get? (encodeCommentKey id sequence)
  votes name := engine.votesDB.get? (encodeVoteKey id name)
  crossposts := (engine.metaDB.crosspostsOf id).map CrosspostRow.unnumbered
  crosspostRecords sequence := (engine.postsDB.get? (encodeCrosspostKey id sequence)).map
    fun value => (decodeRFC822Crosspost value).unnumbered

end Engine

/-! ### What an item has -/

namespace ImportedPostData

def numbered (sequence : UInt32) {Part : Type} (part : Part × Nat) : Bool :=
  UInt32.ofNat (part.2 + 1) = sequence

def commentAt (item : ImportedPostData) (sequence : UInt32) : Option Comment :=
  (latest (numbered sequence) item.comments.zipIdx).map Prod.fst

def counts (record : VoteRecord) : Bool := record.vote = voteUp || record.vote = voteDown

def voteBy (item : ImportedPostData) (name : Bytes) : Option VoteRecord :=
  latest (fun record => counts record && record.personName = name) item.votes

def taken (crossposts : List (CrosspostRecord × Nat)) : List (CrosspostRecord × Nat) :=
  crossposts.filter fun part => bindable part.1.creatorID

theorem taken_cons (part : CrosspostRecord × Nat) (rest : List (CrosspostRecord × Nat)) :
    taken (part :: rest) =
      if bindable part.1.creatorID then part :: taken rest else taken rest :=
  List.filter_cons

def crosspostAt (item : ImportedPostData) (sequence : UInt32) : Option CrosspostRecord :=
  (latest (numbered sequence) (taken item.crossposts.zipIdx)).map Prod.fst

def freshView (item : ImportedPostData) : PostView where
  row := some (Engine.importedRow item.prepared)
  comments sequence := (item.commentAt sequence).map encodeRFC822Comment
  votes name := (item.voteBy name).map fun record =>
    encodeVoteValue record.vote record.personID record.createdAt record.ip
  crossposts := (taken item.crossposts.zipIdx).map fun part =>
    (Engine.crosspostRow part.1).unnumbered
  crosspostRecords sequence := (item.crosspostAt sequence).map fun crosspost =>
    (decodeRFC822Crosspost (encodeRFC822Crosspost crosspost)).unnumbered

end ImportedPostData

namespace Engine

open ImportedPostData

/-! ### What the import writes -/

theorem importComments_view (id : UInt64) (engine : Engine) (comments : List (Comment × Nat))
    (sequence : UInt32) :
    (comments.foldl (importComment id) engine).commentsDB.get? (encodeCommentKey id sequence) =
      ((latest (numbered sequence) comments).map fun part => encodeRFC822Comment part.1).or
        (engine.commentsDB.get? (encodeCommentKey id sequence)) := by
  apply observe_run fun engine : Engine =>
    engine.commentsDB.get? (encodeCommentKey id sequence)
  intro engine part
  unfold importComment setCommentRecord
  dsimp only
  rw [OrderedMap.get?_set_of_ne _ _
    (encodeAuthorCommentKey_ne_encodeCommentKey _ _ _ _ _ _).symm, OrderedMap.get?_set]
  simp only [encodeCommentKey_inj, numbered, decide_eq_true_eq, true_and]
  by_cases matched : UInt32.ofNat (part.2 + 1) = sequence
  · rw [if_pos matched, if_pos matched.symm]
    rfl
  · rw [if_neg matched, if_neg fun same => matched same.symm]

theorem importVotes_view (id : UInt64) (engine : Engine) (votes : List VoteRecord)
    (name : Bytes) :
    (votes.foldl (importVote id) engine).votesDB.get? (encodeVoteKey id name) =
      ((latest (fun record => ImportedPostData.counts record && record.personName = name)
        votes).map fun record =>
          encodeVoteValue record.vote record.personID record.createdAt record.ip).or
        (engine.votesDB.get? (encodeVoteKey id name)) := by
  apply observe_run fun engine : Engine => engine.votesDB.get? (encodeVoteKey id name)
  intro engine record
  unfold importVote
  change (if ImportedPostData.counts record then _ else engine).votesDB.get? _ = _
  by_cases counted : ImportedPostData.counts record = true
  · rw [if_pos counted]
    dsimp only
    rw [OrderedMap.get?_set]
    simp only [encodeVoteKey_inj, true_and, counted, Bool.true_and, decide_eq_true_eq]
    by_cases matched : record.personName = name
    · rw [if_pos matched, if_pos matched.symm]
    · rw [if_neg matched, if_neg fun same => matched same.symm]
  · rw [if_neg counted, if_neg fun both => counted (Bool.and_eq_true_iff.mp both).1]

/-- The crossposts table has a number left for each of so many rows of the post. -/
structure CrosspostRoom (metaDB : MetaDB) (id : UInt64) (rows : Nat) : Prop where
  counted : CrosspostsCounted metaDB
  bound : bindable id = true
  room : metaDB.crosspostsSequence.toNat + rows < 2 ^ 63

theorem insertCrosspost_taken (metaDB : MetaDB) (row : CrosspostRow)
    (room : metaDB.crosspostsSequence.toNat + 1 < 2 ^ 63)
    (source : bindable row.sourcePostID = true) (creator : bindable row.creatorID = true) :
    metaDB.insertCrosspost row =
      .ok ({ metaDB with
        crossposts := metaDB.crossposts.set (metaDB.crosspostsSequence + 1) row
        crosspostsSequence := metaDB.crosspostsSequence + 1 }, metaDB.crosspostsSequence + 1) := by
  have next : MetaDB.nextID metaDB.crosspostsSequence = .ok (metaDB.crosspostsSequence + 1) := by
    unfold MetaDB.nextID
    have limit : (0x7fffffffffffffff : UInt64).toNat = 0x7fffffffffffffff := rfl
    rw [if_pos (by rw [UInt64.lt_iff_toNat_lt, limit]; omega)]
  unfold MetaDB.insertCrosspost
  rw [if_pos (Bool.and_eq_true_iff.mpr ⟨source, creator⟩), next]

theorem insertCrosspost_refused (metaDB : MetaDB) (row : CrosspostRow)
    (creator : ¬ bindable row.creatorID = true) :
    metaDB.insertCrosspost row = .error .unbindable := by
  unfold MetaDB.insertCrosspost
  rw [if_neg fun both => creator (Bool.and_eq_true_iff.mp both).2]

theorem importCrosspost_cases {id : UInt64} {engine : Engine} {rows : Nat}
    (left : CrosspostRoom engine.metaDB id (rows + 1)) (part : CrosspostRecord × Nat) :
    CrosspostRoom (importCrosspost id engine part).metaDB id rows ∧
    if bindable part.1.creatorID then
      (importCrosspost id engine part).metaDB.crosspostsOf id = engine.metaDB.crosspostsOf id ++
        [crosspostRow { part.1 with sourcePostID := id }] ∧
      (importCrosspost id engine part).postsDB =
        engine.postsDB.set (encodeCrosspostKey id (UInt32.ofNat (part.2 + 1)))
          (encodeRFC822Crosspost { part.1 with sourcePostID := id })
    else importCrosspost id engine part = engine := by
  obtain ⟨counted, bound, room⟩ := left
  unfold importCrosspost
  dsimp only
  by_cases taken : bindable part.1.creatorID = true
  · rw [if_pos taken]
    have inserted := insertCrosspost_taken engine.metaDB
      (crosspostRow { part.1 with sourcePostID := id }) (by omega) bound taken
    obtain ⟨stillCounted, entries⟩ := insertCrosspost_entries counted inserted
    rw [inserted]
    dsimp only
    refine ⟨⟨stillCounted, bound, ?_⟩, ?_, rfl⟩
    · change (engine.metaDB.crosspostsSequence + 1).toNat + rows < 2 ^ 63
      have unit : (1 : UInt64).toNat = 1 := rfl
      rw [UInt64.toNat_add, unit, Nat.mod_eq_of_lt (by omega)]
      omega
    · change MetaDB.crosspostsOf { engine.metaDB with
          crossposts := engine.metaDB.crossposts.set (engine.metaDB.crosspostsSequence + 1)
            (crosspostRow { part.1 with sourcePostID := id })
          crosspostsSequence := engine.metaDB.crosspostsSequence + 1 } id = _
      unfold MetaDB.crosspostsOf
      rw [entries, List.map_append, List.filter_append]
      congr 1
      exact List.filter_cons_of_pos (decide_eq_true rfl)
  · rw [if_neg taken]
    have refused := insertCrosspost_refused engine.metaDB
      (crosspostRow { part.1 with sourcePostID := id }) taken
    rw [refused]
    dsimp only
    exact ⟨⟨counted, bound, by omega⟩, rfl⟩

theorem importCrossposts_view {id : UInt64} {engine : Engine}
    {crossposts : List (CrosspostRecord × Nat)}
    (left : CrosspostRoom engine.metaDB id crossposts.length) :
    (crossposts.foldl (importCrosspost id) engine).metaDB.crosspostsOf id =
      engine.metaDB.crosspostsOf id ++ (taken crossposts).map fun part =>
        crosspostRow { part.1 with sourcePostID := id } := by
  induction crossposts generalizing engine with
  | nil => exact (List.append_nil _).symm
  | cons part rest ih =>
      obtain ⟨room, step⟩ := importCrosspost_cases left part
      rw [List.foldl_cons, ih room, taken_cons]
      split at step
      · rename_i bound
        rw [step.1, if_pos bound, List.map_cons, List.append_assoc,
          List.singleton_append]
      · rename_i unbound
        rw [step, if_neg unbound]

theorem importCrossposts_records {id : UInt64} {engine : Engine}
    {crossposts : List (CrosspostRecord × Nat)} (sequence : UInt32)
    (left : CrosspostRoom engine.metaDB id crossposts.length) :
    (crossposts.foldl (importCrosspost id) engine).postsDB.get?
        (encodeCrosspostKey id sequence) =
      ((latest (numbered sequence) (taken crossposts)).map fun part =>
        encodeRFC822Crosspost { part.1 with sourcePostID := id }).or
        (engine.postsDB.get? (encodeCrosspostKey id sequence)) := by
  induction crossposts generalizing engine with
  | nil => rfl
  | cons part rest ih =>
      obtain ⟨room, step⟩ := importCrosspost_cases left part
      rw [List.foldl_cons, ih room, taken_cons]
      split at step
      · rename_i bound
        rw [step.2, if_pos bound, latest_cons, OrderedMap.get?_set]
        simp only [encodeCrosspostKey_inj, true_and]
        cases latest (numbered sequence) (taken rest) with
        | some last => rfl
        | none =>
            by_cases matched : numbered sequence part = true
            · rw [if_pos (of_decide_eq_true matched).symm, if_pos matched]
              rfl
            · rw [if_neg fun same => matched (decide_eq_true same.symm), if_neg matched]
              rfl
      · rename_i unbound
        rw [step, if_neg unbound]

end Engine

/-! ### The view after an import -/

def PostView.onto (fresh stored : PostView) : PostView where
  row := fresh.row
  comments sequence := (fresh.comments sequence).or (stored.comments sequence)
  votes name := (fresh.votes name).or (stored.votes name)
  crossposts := stored.crossposts ++ fresh.crossposts
  crosspostRecords sequence :=
    (fresh.crosspostRecords sequence).or (stored.crosspostRecords sequence)

theorem upsertPost_crossposts {metaDB after : MetaDB} {given : Option UInt64} {row : PostRow}
    {id : UInt64} (done : metaDB.upsertPost given row = .ok (after, id)) :
    after.crossposts = metaDB.crossposts ∧
      after.crosspostsSequence = metaDB.crosspostsSequence := by
  obtain ⟨chosen, _choice, ⟨_found, changed⟩ | ⟨_same, _missing, _free, added⟩⟩ :=
    MetaDB.upsertPost_ok done
  · rw [changed]
    exact ⟨rfl, rfl⟩
  · rw [added]
    exact ⟨rfl, rfl⟩

namespace Engine

open ImportedPostData

variable {cfg : Config} {engine after : Engine} {item : ImportedPostData} {id : UInt64}

theorem importPost_view (imported : engine.importPost cfg item = (after, .ok id))
    (left : CrosspostRoom engine.metaDB id item.crossposts.length) :
    after.postView id =
      { item.freshView.onto (engine.postView id) with
        row := after.metaDB.posts.get? id } := by
  obtain ⟨counter, metaDB, upserted, rfl⟩ := importPost_ok imported
  obtain ⟨crossposts, crosspostsSequence⟩ := upsertPost_crossposts upserted
  generalize begun : item.votes.foldl (importVote id) (item.comments.zipIdx.foldl
    (importComment id) (engine.importStored counter metaDB item id)) = stored
  have storedMeta : stored.metaDB = metaDB := by
    rw [← begun, importVotes_frame, importComments_frame]
    rfl
  have storedPosts : stored.postsDB =
      engine.postsDB.set (encodePostKey id) (encodeRFC822Post { item.prepared with id := id }) := by
    rw [← begun, importVotes_frame, importComments_frame]
    rfl
  have room : CrosspostRoom stored.metaDB id item.crossposts.zipIdx.length := by
    rw [storedMeta, List.length_zipIdx]
    refine ⟨?_, left.bound, ?_⟩
    · unfold CrosspostsCounted
      rw [crossposts, crosspostsSequence]
      exact left.counted
    · rw [crosspostsSequence]
      exact left.room
  have frame := importCrossposts_frame id item.crossposts.zipIdx stored
  unfold postView PostView.onto freshView
  dsimp only
  congr 1
  · funext sequence
    rw [frame.commentsDB, ← begun, importVotes_frame, importComments_view,
      ImportedPostData.commentAt, Option.map_map]
    rfl
  · funext name
    rw [frame.votesDB, ← begun, importVotes_view, importComments_frame]
    rfl
  · rw [importCrossposts_view room, storedMeta, List.map_append, List.map_map]
    unfold MetaDB.crosspostsOf
    rw [crossposts]
    rfl
  · funext sequence
    rw [importCrossposts_records sequence room, storedPosts,
      OrderedMap.get?_set_of_ne _ _ (encodeCrosspostKey_ne_encodePostKey _ _ _), crosspostAt,
      Option.map_map, Option.map_or, Option.map_map]
    simp only [Function.comp_def, decodeRFC822Crosspost_encodeRFC822Crosspost]
    rfl

theorem flush_view (engine : Engine) (id : UInt64) :
    engine.flushDirtyDeltas.postView id =
      { engine.postView id with
        row := (engine.metaDB.posts.get? id).map
          (applyDelta ((engine.dirtyDeltas.get? id).getD {})) } := by
  unfold postView flushDirtyDeltas
  dsimp only
  rw [OrderedMap.get?_mapValues]
  rfl

end Engine

/-! ### Other items of a batch -/

namespace Engine

open ImportedPostData

variable {cfg : Config} {engine after : Engine} {item : ImportedPostData} {id other : UInt64}

theorem importComments_other (different : id ≠ other) (engine : Engine)
    (comments : List (Comment × Nat)) (sequence : UInt32) :
    (comments.foldl (importComment other) engine).commentsDB.get? (encodeCommentKey id sequence) =
      engine.commentsDB.get? (encodeCommentKey id sequence) := by
  induction comments generalizing engine with
  | nil => rfl
  | cons part rest ih =>
      rw [List.foldl_cons, ih]
      unfold importComment setCommentRecord
      dsimp only
      rw [OrderedMap.get?_set_of_ne _ _
        (encodeAuthorCommentKey_ne_encodeCommentKey _ _ _ _ _ _).symm,
        OrderedMap.get?_set_of_ne _ _ fun same => different (encodeCommentKey_inj.mp same).1]

theorem importVotes_other (different : id ≠ other) (engine : Engine)
    (votes : List VoteRecord) (name : Bytes) :
    (votes.foldl (importVote other) engine).votesDB.get? (encodeVoteKey id name) =
      engine.votesDB.get? (encodeVoteKey id name) := by
  induction votes generalizing engine with
  | nil => rfl
  | cons record rest ih =>
      rw [List.foldl_cons, ih]
      unfold importVote
      split
      · exact OrderedMap.get?_set_of_ne _ _ fun same => different (encodeVoteKey_inj.mp same).1
      · rfl

theorem importCrosspost_counted (id : UInt64) (counted : CrosspostsCounted engine.metaDB)
    (part : CrosspostRecord × Nat) :
    CrosspostsCounted (importCrosspost id engine part).metaDB := by
  unfold importCrosspost
  dsimp only
  split
  · exact counted
  · rename_i inserted
    exact (insertCrosspost_entries counted inserted).1

theorem importPost_counted (counted : CrosspostsCounted engine.metaDB)
    (imported : engine.importPost cfg item = (after, .ok id)) :
    CrosspostsCounted after.metaDB := by
  obtain ⟨counter, metaDB, upserted, rfl⟩ := importPost_ok imported
  obtain ⟨crossposts, crosspostsSequence⟩ := upsertPost_crossposts upserted
  have stored : CrosspostsCounted (item.votes.foldl (importVote id) (item.comments.zipIdx.foldl
      (importComment id) (engine.importStored counter metaDB item id))).metaDB := by
    rw [importVotes_frame, importComments_frame]
    change CrosspostsCounted metaDB
    unfold CrosspostsCounted
    rw [crossposts, crosspostsSequence]
    exact counted
  exact List.foldlRecOn (motive := fun engine : Engine => CrosspostsCounted engine.metaDB)
    item.crossposts.zipIdx (importCrosspost id) stored
    fun _ counted part _ => importCrosspost_counted id counted part

theorem importCrosspost_other (different : id ≠ other)
    (counted : CrosspostsCounted engine.metaDB) (part : CrosspostRecord × Nat) :
    (importCrosspost other engine part).metaDB.crosspostsOf id = engine.metaDB.crosspostsOf id ∧
      ∀ sequence, (importCrosspost other engine part).postsDB.get?
        (encodeCrosspostKey id sequence) =
          engine.postsDB.get? (encodeCrosspostKey id sequence) := by
  unfold importCrosspost
  dsimp only
  split
  · exact ⟨rfl, fun _ => rfl⟩
  · rename_i metaDB next inserted
    obtain ⟨_counted, entries⟩ := insertCrosspost_entries counted inserted
    refine ⟨?_, ?_⟩
    · change metaDB.crosspostsOf id = _
      unfold MetaDB.crosspostsOf
      rw [entries, List.map_append, List.filter_append]
      have none : List.filter (fun row : CrosspostRow => row.sourcePostID = id)
          (List.map Prod.snd [(next, crosspostRow { part.1 with sourcePostID := other })]) = [] :=
        List.filter_cons_of_neg (by rw [decide_eq_true_eq]; exact different.symm)
      rw [none, List.append_nil]
    · intro sequence
      exact OrderedMap.get?_set_of_ne _ _ fun same => different (encodeCrosspostKey_inj.mp same).1

theorem importCrossposts_other (different : id ≠ other)
    (counted : CrosspostsCounted engine.metaDB) (crossposts : List (CrosspostRecord × Nat)) :
    (crossposts.foldl (importCrosspost other) engine).metaDB.crosspostsOf id =
        engine.metaDB.crosspostsOf id ∧
      ∀ sequence, (crossposts.foldl (importCrosspost other) engine).postsDB.get?
        (encodeCrosspostKey id sequence) =
          engine.postsDB.get? (encodeCrosspostKey id sequence) := by
  induction crossposts generalizing engine with
  | nil => exact ⟨rfl, fun _ => rfl⟩
  | cons part rest ih =>
      obtain ⟨rows, records⟩ := importCrosspost_other different counted part
      obtain ⟨laterRows, laterRecords⟩ := ih (importCrosspost_counted other counted part)
      exact ⟨laterRows.trans rows,
        fun sequence => (laterRecords sequence).trans (records sequence)⟩

theorem importPost_other (imported : engine.importPost cfg item = (after, .ok other))
    (counted : CrosspostsCounted engine.metaDB) (different : id ≠ other) :
    after.postView id = engine.postView id ∧ after.dirtyDeltas = engine.dirtyDeltas := by
  have rows := (importPost_rows imported).2.1 id different
  obtain ⟨counter, metaDB, upserted, rfl⟩ := importPost_ok imported
  obtain ⟨crossposts, crosspostsSequence⟩ := upsertPost_crossposts upserted
  generalize begun : item.votes.foldl (importVote other) (item.comments.zipIdx.foldl
    (importComment other) (engine.importStored counter metaDB item other)) = stored at rows ⊢
  have storedMeta : stored.metaDB = metaDB := by
    rw [← begun, importVotes_frame, importComments_frame]
    rfl
  have storedDeltas : stored.dirtyDeltas = engine.dirtyDeltas := by
    rw [← begun, importVotes_frame, importComments_frame]
    rfl
  have storedPosts : stored.postsDB = engine.postsDB.set (encodePostKey other)
      (encodeRFC822Post { item.prepared with id := other }) := by
    rw [← begun, importVotes_frame, importComments_frame]
    rfl
  have storedCounted : CrosspostsCounted stored.metaDB := by
    unfold CrosspostsCounted
    rw [storedMeta, crossposts, crosspostsSequence]
    exact counted
  have frame := importCrossposts_frame other item.crossposts.zipIdx stored
  obtain ⟨afterRows, afterRecords⟩ :=
    importCrossposts_other different storedCounted item.crossposts.zipIdx
  refine ⟨?_, frame.dirtyDeltas.trans storedDeltas⟩
  unfold postView
  rw [rows, afterRows, storedMeta]
  congr 1
  · funext sequence
    rw [frame.commentsDB, ← begun, importVotes_frame]
    exact importComments_other different _ _ sequence
  · funext name
    rw [frame.votesDB, ← begun, importVotes_other different, importComments_frame]
    rfl
  · unfold MetaDB.crosspostsOf
    rw [crossposts]
  · funext sequence
    rw [afterRecords, storedPosts,
      OrderedMap.get?_set_of_ne _ _ (encodeCrosspostKey_ne_encodePostKey _ _ _)]

theorem importPosts_cons {rest : List ImportedPostData}
    {entries : List (UInt64 × ImportedPostData)}
    (imported : engine.importPosts cfg (item :: rest) = (after, .ok entries)) :
    ∃ next id others, engine.importPost cfg item = (next, .ok id) ∧
      next.importPosts cfg rest = (after, .ok others) ∧ entries = (id, item) :: others := by
  unfold importPosts at imported
  cases here : engine.importPost cfg item with
  | mk next result =>
      rw [here] at imported
      cases result with
      | error failure => cases imported
      | ok id =>
          dsimp only at imported
          cases later : next.importPosts cfg rest with
          | mk final result =>
              rw [later] at imported
              cases result with
              | error failure => cases imported
              | ok others =>
                  cases imported
                  exact ⟨next, id, others, rfl, later, rfl⟩

theorem importPostBatch_ok {batch : List ImportedPostData} {ids : List UInt64}
    (imported : engine.importPostBatch cfg batch = (after, .ok ids)) :
    ∃ done entries, engine.importPosts cfg batch = (done, .ok entries) ∧
      ids = entries.map Prod.fst ∧
      after = { done with postSeqs := entries.foldl (fun postSeqs entry =>
        postSeqs.set entry.1 (UInt32.ofNat entry.2.comments.length)) done.postSeqs } := by
  unfold importPostBatch at imported
  cases finished : engine.importPosts cfg batch with
  | mk done result =>
      rw [finished] at imported
      cases result with
      | error failure => cases imported
      | ok entries =>
          cases imported
          exact ⟨done, entries, rfl, rfl, rfl⟩

theorem importPosts_other {batch : List ImportedPostData}
    {entries : List (UInt64 × ImportedPostData)} {row : PostRow}
    (imported : engine.importPosts cfg batch = (after, .ok entries))
    (counted : CrosspostsCounted engine.metaDB)
    (stored : engine.metaDB.posts.get? id = some row)
    (others : ∀ item ∈ batch, ¬ (item.post.community = row.community ∧
      item.post.postFile = row.postFile)) :
    after.postView id = engine.postView id ∧ after.dirtyDeltas = engine.dirtyDeltas ∧
      ∀ entry ∈ entries, entry.1 ≠ id := by
  induction batch generalizing engine entries with
  | nil =>
      cases imported
      exact ⟨rfl, rfl, List.forall_mem_nil _⟩
  | cons first rest ih =>
      obtain ⟨reached, other, found, here, later, whole⟩ := importPosts_cons imported
      have different : id ≠ other := by
        intro same
        rcases (importPost_rows here).1 with ⟨held, found, names⟩ | free
        · rw [← same, stored] at found
          cases found
          exact others first List.mem_cons_self ⟨names.1.symm, names.2.symm⟩
        · rw [← same, stored] at free
          cases free
      obtain ⟨view, deltas⟩ := importPost_other here counted different
      have sameRow : reached.metaDB.posts.get? id = engine.metaDB.posts.get? id :=
        congrArg PostView.row view
      have kept : reached.metaDB.posts.get? id = some row := sameRow.trans stored
      obtain ⟨finalView, finalDeltas, unnamed⟩ := ih later (importPost_counted counted here) kept
        fun item member => others item (List.mem_cons_of_mem _ member)
      refine ⟨finalView.trans view, finalDeltas.trans deltas, ?_⟩
      rw [whole]
      exact List.forall_mem_cons.mpr ⟨different.symm, unnamed⟩

end Engine

/-! ### Importing over a post -/

namespace Engine

open ImportedPostData

/-- The store has nothing of a post with the names of the item, nor anything under the
number it is about to get. -/
structure NeverHad (engine : Engine) (item : ImportedPostData) (id : UInt64) : Prop where
  file : engine.metaDB.findFile item.post.community item.post.postFile = none
  comments : ∀ sequence, engine.commentsDB.get? (encodeCommentKey id sequence) = none
  votes : ∀ name, engine.votesDB.get? (encodeVoteKey id name) = none
  crossposts : engine.metaDB.crosspostsOf id = []
  crosspostRecords : ∀ sequence, engine.postsDB.get? (encodeCrosspostKey id sequence) = none
  pending : engine.dirtyDeltas.get? id = none

/-- After a flush the post is held as any store holds it that never had the post and
imports the item. -/
def SameAsFresh (engine : Engine) (id : UInt64) (item : ImportedPostData) : Prop :=
  ∀ (cfg : Config) (other imported : Engine) (fresh : UInt64),
    other.NeverHad item fresh → CrosspostRoom other.metaDB fresh item.crossposts.length →
    other.importPostBatch cfg [item] = (imported, .ok [fresh]) →
    engine.flushDirtyDeltas.postView id = imported.flushDirtyDeltas.postView fresh

def NextNumberFree (engine : Engine) (id : UInt64) : Prop :=
  engine.commentsDB.get? (encodeCommentKey id (engine.lastSequence id + 1)) = none

/-- All that the store holds of the post is replaced by the import. -/
structure NothingLeft (engine : Engine) (id : UInt64) (item : ImportedPostData) : Prop where
  row : ∀ stored, engine.metaDB.posts.get? id = some stored →
    stored.parentID = item.post.parentID ∧ stored.deletion = item.post.deletion
  pending : (engine.dirtyDeltas.get? id).getD {} = {}
  comments : ∀ sequence, item.commentAt sequence = none →
    engine.commentsDB.get? (encodeCommentKey id sequence) = none
  few : item.comments.length < 2 ^ 32
  votes : ∀ name, item.voteBy name = none → engine.votesDB.get? (encodeVoteKey id name) = none
  crossposts : engine.metaDB.crosspostsOf id = []
  crosspostRecords : ∀ sequence, item.crosspostAt sequence = none →
    engine.postsDB.get? (encodeCrosspostKey id sequence) = none

theorem importPostBatch_single {cfg : Config} {engine after : Engine}
    {item : ImportedPostData} {id : UInt64}
    (imported : engine.importPostBatch cfg [item] = (after, .ok [id])) :
    ∃ reached, engine.importPost cfg item = (reached, .ok id) ∧
      after.postView = reached.postView ∧ after.dirtyDeltas = reached.dirtyDeltas := by
  obtain ⟨done, entries, finished, ids, rfl⟩ := importPostBatch_ok imported
  obtain ⟨reached, found, others, here, rest, whole⟩ := importPosts_cons finished
  cases rest
  rw [whole] at ids
  cases ids
  exact ⟨done, here, rfl, rfl⟩

theorem importPost_dirtyDeltas {cfg : Config} {engine after : Engine} {item : ImportedPostData}
    {id : UInt64} (imported : engine.importPost cfg item = (after, .ok id)) :
    after.dirtyDeltas = engine.dirtyDeltas := by
  obtain ⟨counter, metaDB, _upserted, rfl⟩ := importPost_ok imported
  rw [(importCrossposts_frame _ _ _).dirtyDeltas, importVotes_frame, importComments_frame]
  rfl

theorem applyDelta_zero (row : PostRow) : applyDelta {} row = row := by
  simp [applyDelta]

theorem freshView_of_neverHad {cfg : Config} {engine after : Engine}
    {item : ImportedPostData} {id : UInt64} (never : engine.NeverHad item id)
    (left : CrosspostRoom engine.metaDB id item.crossposts.length)
    (imported : engine.importPostBatch cfg [item] = (after, .ok [id])) :
    after.flushDirtyDeltas.postView id = item.freshView := by
  obtain ⟨reached, first, view, deltas⟩ := importPostBatch_single imported
  have row : reached.metaDB.posts.get? id = some (importedRow item.prepared) := by
    obtain ⟨counter, metaDB, upserted, rfl⟩ := importPost_ok first
    rw [(importCrossposts_frame _ _ _).posts, importVotes_frame, importComments_frame]
    change metaDB.posts.get? id = _
    obtain ⟨chosen, _choice, ⟨found, _changed⟩ | ⟨_same, _missing, _free, added⟩⟩ :=
      MetaDB.upsertPost_ok upserted
    · have missing : engine.metaDB.findFile item.post.community item.post.postFile = some id :=
        found
      rw [never.file] at missing
      cases missing
    · rw [added, MetaDB.get?_putPost_self]
  rw [flush_view, view, deltas, importPost_dirtyDeltas first, never.pending,
    importPost_view first left]
  have afterRow : after.metaDB.posts.get? id = some (importedRow item.prepared) :=
    (congrArg PostView.row (congrFun view id)).trans row
  rw [afterRow]
  unfold PostView.onto postView
  dsimp only
  simp only [never.comments, never.votes, never.crossposts, never.crosspostRecords,
    Option.map_none, Option.or_none, List.map_nil, List.nil_append, Option.map_some,
    Option.getD_none, applyDelta_zero]
  rfl

theorem exists_fresh {cfg : Config} {engine after : Engine} {item : ImportedPostData}
    {id : UInt64} (imported : engine.importPost cfg item = (after, .ok id))
    (left : item.crossposts.length < 2 ^ 63) :
    ∃ (imported : Engine) (fresh : UInt64), NeverHad {} item fresh ∧
      CrosspostRoom ({} : Engine).metaDB fresh item.crossposts.length ∧
      ({} : Engine).importPostBatch {} [item] = (imported, .ok [fresh]) := by
  obtain ⟨_counter, _metaDB, upserted, _afterEq⟩ := importPost_ok imported
  have bound : MetaDB.rowBindable (importedRow item.prepared) = true := by
    unfold MetaDB.upsertPost at upserted
    split at upserted
    · assumption
    · cases upserted
  -- The number asked for is free in an empty store.
  obtain ⟨fresh, chosen, freshBound⟩ : ∃ fresh,
      MetaDB.chooseID 0 (candidateID {} {} item.prepared).2 = .ok fresh ∧
        bindable fresh = true := by
    by_cases given : item.prepared.id = 0
    · refine ⟨1, ?_, by decide⟩
      unfold candidateID
      rw [if_neg (not_not.mpr given)]
      rfl
    · obtain ⟨chosen, choice, _rest⟩ := MetaDB.upsertPost_ok upserted
      have candidate : (engine.candidateID cfg item.prepared).2 = some item.prepared.id := by
        unfold candidateID
        rw [if_pos given]
      rw [candidate] at choice
      obtain ⟨_same, taken⟩ := MetaDB.chooseID_some choice
      refine ⟨item.prepared.id, ?_, taken⟩
      unfold candidateID
      rw [if_pos given]
      exact if_pos taken
  have stored : MetaDB.upsertPost {} (candidateID {} {} item.prepared).2
      (importedRow item.prepared) =
      .ok (MetaDB.putPost {} fresh (importedRow item.prepared), fresh) := by
    unfold MetaDB.upsertPost
    rw [if_pos bound, chosen]
    rfl
  have store : (candidateID {} {} item.prepared).1.metaDB = {} := by
    unfold candidateID
    split <;> rfl
  obtain ⟨result, batch⟩ : ∃ result,
      ({} : Engine).importPostBatch {} [item] = (result, .ok [fresh]) := by
    unfold importPostBatch importPosts importPost
    dsimp only
    rw [store, stored]
    exact ⟨_, rfl⟩
  refine ⟨result, fresh, ⟨rfl, fun _ => rfl, fun _ => rfl, rfl, fun _ => rfl, rfl⟩,
    ⟨nofun, freshBound, ?_⟩, batch⟩
  change (0 : UInt64).toNat + _ < _
  rw [UInt64.toNat_zero]
  omega

end Engine

/-! ### What an overwrite needs -/

namespace ImportedPostData

theorem commentAt_next (item : ImportedPostData) :
    item.commentAt (UInt32.ofNat item.comments.length + 1) = none ↔
      item.comments.length < 2 ^ 32 := by
  have next : (UInt32.ofNat item.comments.length + 1).toNat =
      (item.comments.length + 1) % 2 ^ 32 := by
    have unit : (1 : UInt32).toNat = 1 := rfl
    rw [UInt32.toNat_add, UInt32.toNat_ofNat', unit]
    omega
  have same : ∀ part : Comment × Nat,
      numbered (UInt32.ofNat item.comments.length + 1) part = true ↔
        (part.2 + 1) % 2 ^ 32 = (item.comments.length + 1) % 2 ^ 32 := by
    intro part
    unfold numbered
    rw [decide_eq_true_eq, ← UInt32.toNat_inj, next, UInt32.toNat_ofNat']
  unfold commentAt
  rw [Option.map_eq_none_iff, latest_eq_none_iff]
  constructor
  · intro free
    by_contra many
    have inRange : item.comments.length % 2 ^ 32 < item.comments.length := by omega
    have member := List.mk_mem_zipIdx_iff_getElem?.mpr (List.getElem?_eq_getElem inRange)
    have unused := free _ member
    rw [(same _).mpr (by dsimp only; omega)] at unused
    cases unused
  · intro few part member
    have position := List.snd_lt_of_mem_zipIdx member
    exact Bool.eq_false_iff.mpr (mt (same part).mp (by omega))

end ImportedPostData

namespace Engine

open ImportedPostData

variable {cfg : Config}

theorem importPosts_append {engine final : Engine} {before rest : List ImportedPostData}
    {entries : List (UInt64 × ImportedPostData)}
    (imported : engine.importPosts cfg (before ++ rest) = (final, .ok entries)) :
    ∃ reached first second, engine.importPosts cfg before = (reached, .ok first) ∧
      reached.importPosts cfg rest = (final, .ok second) ∧ entries = first ++ second := by
  induction before generalizing engine entries with
  | nil => exact ⟨engine, [], entries, rfl, imported, rfl⟩
  | cons item others ih =>
      obtain ⟨next, id, found, here, later, whole⟩ := importPosts_cons imported
      obtain ⟨middle, first, second, left, right, parts⟩ := ih later
      refine ⟨middle, (id, item) :: first, second, ?_, right, ?_⟩
      · unfold importPosts
        rw [here]
        dsimp only
        rw [left]
      · rw [whole, parts, List.cons_append]

theorem sequences_get {postSeqs : OrderedMap UInt64 UInt32} {id : UInt64}
    {item : ImportedPostData} (first : List (UInt64 × ImportedPostData))
    {second : List (UInt64 × ImportedPostData)} (others : ∀ entry ∈ second, entry.1 ≠ id) :
    ((first ++ (id, item) :: second).foldl (fun postSeqs entry =>
      postSeqs.set entry.1 (UInt32.ofNat entry.2.comments.length)) postSeqs).get? id =
        some (UInt32.ofNat item.comments.length) := by
  rw [List.foldl_append, List.foldl_cons]
  generalize reach : (first.foldl _ postSeqs).set id (UInt32.ofNat item.comments.length) = reached
  have stored : reached.get? id = some (UInt32.ofNat item.comments.length) := by
    rw [← reach]
    exact OrderedMap.get?_set_self _ _ _
  clear reach
  induction second generalizing reached with
  | nil => exact stored
  | cons entry rest ih =>
      apply ih fun other member => others other (List.mem_cons_of_mem _ member)
      rw [OrderedMap.get?_set_of_ne _ _ (others entry List.mem_cons_self).symm]
      exact stored

theorem or_eq_left_iff {Value : Type} {left right : Option Value} :
    left.or right = left ↔ (left = none → right = none) := by
  cases left with
  | none => simp
  | some value => simp

/-- The row is that of a new post when the columns that the statement leaves out agree
and nothing is pending. -/
theorem applyDelta_importOver_iff (delta : PostDelta) {stored row : PostRow}
    (community : stored.community = row.community) (postFile : stored.postFile = row.postFile) :
    applyDelta delta (MetaDB.importOver stored row) = row ↔
      (stored.parentID = row.parentID ∧ stored.deletion = row.deletion) ∧ delta = {} := by
  obtain ⟨upvotes, downvotes, comments⟩ := delta
  cases row
  cases stored
  simp only at community postFile
  simp only [applyDelta, MetaDB.importOver, PostRow.mk.injEq, PostDelta.mk.injEq, community,
    postFile]
  constructor
  · rintro ⟨parent, _, _, _, _, _, _, _, _, up, down, count, _, _, deletion, _⟩
    exact ⟨⟨parent, deletion⟩, by omega, by omega, by omega⟩
  · rintro ⟨⟨parent, deletion⟩, up, down, count⟩
    simp only [parent, deletion, up, down, count, Int.add_zero, and_true]

theorem importPost_known {engine after : Engine} {item : ImportedPostData} {id other : UInt64}
    {stored : PostRow} (imported : engine.importPost cfg item = (after, .ok other))
    (known : engine.metaDB.findFile item.post.community item.post.postFile = some id)
    (row : engine.metaDB.posts.get? id = some stored) :
    other = id ∧ after.metaDB.posts.get? id =
      some (MetaDB.importOver stored (importedRow item.prepared)) := by
  obtain ⟨counter, metaDB, upserted, rfl⟩ := importPost_ok imported
  rw [(importCrossposts_frame _ _ _).posts, importVotes_frame, importComments_frame]
  change _ ∧ metaDB.posts.get? id = _
  have named : engine.metaDB.findFile (importedRow item.prepared).community
      (importedRow item.prepared).postFile = some id := known
  obtain ⟨chosen, _choice, ⟨found, changed⟩ | ⟨_same, missing, _free, _added⟩⟩ :=
    MetaDB.upsertPost_ok upserted
  · rw [named] at found
    cases found
    rw [changed]
    refine ⟨rfl, ?_⟩
    rw [OrderedMap.get?_modify_self, row]
    rfl
  · rw [named] at missing
    cases missing

/-- What is held after the import is what the item has, exactly when nothing of the old
post is left out by it. -/
theorem onto_eq_fresh_iff (engine : Engine) (id : UInt64) (item : ImportedPostData)
    (row : PostRow) :
    { item.freshView.onto (engine.postView id) with row := some row } = item.freshView ↔
      row = importedRow item.prepared ∧
      (∀ sequence, item.commentAt sequence = none →
        engine.commentsDB.get? (encodeCommentKey id sequence) = none) ∧
      (∀ name, item.voteBy name = none →
        engine.votesDB.get? (encodeVoteKey id name) = none) ∧
      engine.metaDB.crosspostsOf id = [] ∧
      ∀ sequence, item.crosspostAt sequence = none →
        engine.postsDB.get? (encodeCrosspostKey id sequence) = none := by
  unfold PostView.onto postView freshView
  simp only [PostView.mk.injEq, funext_iff, or_eq_left_iff, Option.map_eq_none_iff,
    Option.some_inj, List.append_left_eq_self, List.map_eq_nil_iff]

/-- An import over a post leaves what an import into a store without it leaves, and a
free number for the next comment, exactly when it replaces all that is held of the post. -/
theorem reimport_overwrites_iff {engine reached final : Engine}
    {before later : List ImportedPostData} {item : ImportedPostData}
    {first : List (UInt64 × ImportedPostData)} {ids : List UInt64} {id : UInt64}
    (beforehand : engine.importPosts cfg before = (reached, .ok first))
    (known : reached.metaDB.findFile item.post.community item.post.postFile = some id)
    (imported : engine.importPostBatch cfg (before ++ item :: later) = (final, .ok ids))
    (last : ∀ other ∈ later, ¬ (other.post.community = item.post.community ∧
      other.post.postFile = item.post.postFile))
    (left : CrosspostRoom reached.metaDB id item.crossposts.length) :
    (final.SameAsFresh id item ∧ final.flushDirtyDeltas.NextNumberFree id) ↔
      reached.NothingLeft id item := by
  -- The batch, taken apart at the item.
  obtain ⟨done, entries, finished, _ids, rfl⟩ := importPostBatch_ok imported
  obtain ⟨reached', first', second, atItem, rest, whole⟩ := importPosts_append finished
  rw [beforehand] at atItem
  cases atItem
  obtain ⟨next, other, others, here, after, parts⟩ := importPosts_cons rest
  obtain ⟨stored, row, community, postFile⟩ := MetaDB.findFile_some known
  obtain ⟨rfl, changed⟩ := importPost_known here known row
  have view := importPost_view here left
  obtain ⟨finalView, finalDeltas, unnamed⟩ := importPosts_other after
    (importPost_counted left.counted here) changed
    (by intro later member; rw [MetaDB.importOver, community, postFile]; exact last later member)
  generalize counters : entries.foldl (fun postSeqs entry =>
    postSeqs.set entry.1 (UInt32.ofNat entry.2.comments.length)) done.postSeqs = postSeqs
  have counter : postSeqs.get? other = some (UInt32.ofNat item.comments.length) := by
    rw [← counters, whole, parts]
    exact sequences_get first unnamed
  generalize result : ({ done with postSeqs := postSeqs } : Engine) = final
  -- What the flushed store holds, in terms of the state before the item.
  have held : final.flushDirtyDeltas.postView other =
      { item.freshView.onto (reached.postView other) with
        row := some (applyDelta ((reached.dirtyDeltas.get? other).getD {})
          (MetaDB.importOver stored (importedRow item.prepared))) } := by
    have sameView : final.postView other = next.postView other := by
      rw [← result]
      exact finalView
    have rowNow : final.metaDB.posts.get? other = _ :=
      (congrArg PostView.row sameView).trans changed
    have deltas : final.dirtyDeltas = reached.dirtyDeltas := by
      rw [← result]
      exact finalDeltas.trans (importPost_dirtyDeltas here)
    rw [flush_view, sameView, view, rowNow, deltas]
    rfl
  have number : final.flushDirtyDeltas.NextNumberFree other ↔
      ((item.commentAt (UInt32.ofNat item.comments.length + 1)).map encodeRFC822Comment).or
        (reached.commentsDB.get? (encodeCommentKey other
          (UInt32.ofNat item.comments.length + 1))) = none := by
    have last : final.flushDirtyDeltas.lastSequence other =
        UInt32.ofNat item.comments.length := by
      unfold lastSequence
      have kept : final.flushDirtyDeltas.postSeqs = postSeqs := by rw [← result]; rfl
      rw [kept, counter]
      rfl
    unfold NextNumberFree
    rw [last]
    have comments := congrFun (congrArg PostView.comments held)
      (UInt32.ofNat item.comments.length + 1)
    exact iff_of_eq (congrArg (· = none) comments)
  have fresh : final.SameAsFresh other item ↔
      final.flushDirtyDeltas.postView other = item.freshView := by
    constructor
    · intro same
      obtain ⟨empty, id, never, room, batch⟩ := exists_fresh here
        (Nat.lt_of_le_of_lt (Nat.le_add_left _ _) left.room)
      rw [same {} {} empty id never room batch]
      exact freshView_of_neverHad never room batch
    · intro same cfg engine imported id never room batch
      rw [same, freshView_of_neverHad never room batch]
  rw [fresh, held, onto_eq_fresh_iff, applyDelta_importOver_iff _ community postFile, number,
    Option.or_eq_none_iff, Option.map_eq_none_iff, commentAt_next]
  constructor
  · rintro ⟨⟨⟨columns, pending⟩, comments, votes, crossposts, records⟩, few, _free⟩
    exact {
      row := fun held same => by
        rw [row] at same
        cases same
        exact columns
      pending := pending
      comments := comments
      few := few
      votes := votes
      crossposts := crossposts
      crosspostRecords := records }
  · intro nothing
    exact ⟨⟨⟨nothing.row stored row, nothing.pending⟩, nothing.comments, nothing.votes,
      nothing.crossposts, nothing.crosspostRecords⟩, nothing.few,
      nothing.comments _ ((commentAt_next item).mpr nothing.few)⟩

/-! ### A post imported twice -/

section Twice

def pushedItem : ImportedPostData where
  post := { community := utf8 "Test", postFile := utf8 "M.1.A", title := utf8 "t",
            creatorName := utf8 "alice", createdAt := 100, upvotes := 1 }
  comments := [{ creatorName := utf8 "bob", createdAt := 101, content := utf8 "first" }]
  votes := [{ personName := utf8 "bob", vote := voteUp, createdAt := 101 }]

def longerItem : ImportedPostData :=
  { pushedItem with
    comments := pushedItem.comments ++
      [{ creatorName := utf8 "carol", createdAt := 102, content := utf8 "second" }] }

def importedOnce (item : ImportedPostData) : Engine := (({} : Engine).importPostBatch {} [item]).1

theorem importedOnce_ok (item : ImportedPostData) (fine : item = pushedItem ∨ item = longerItem) :
    ({} : Engine).importPostBatch {} [item] = (importedOnce item, .ok [1]) := by
  rcases fine with rfl | rfl <;> rfl

/-- The second comment of the old article stays, under the number that the next comment
gets. -/
theorem shorter_reimport_keeps_comment :
    ¬ ∀ (cfg : Config) (engine reached final : Engine) (before later : List ImportedPostData)
        (item : ImportedPostData) (first : List (UInt64 × ImportedPostData)) (ids : List UInt64)
        (id : UInt64), engine.importPosts cfg before = (reached, .ok first) →
        reached.metaDB.findFile item.post.community item.post.postFile = some id →
        engine.importPostBatch cfg (before ++ item :: later) = (final, .ok ids) →
        (∀ other ∈ later, ¬ (other.post.community = item.post.community ∧
          other.post.postFile = item.post.postFile)) →
        CrosspostRoom reached.metaDB id item.crossposts.length →
        final.SameAsFresh id item ∧ final.flushDirtyDeltas.NextNumberFree id := by
  intro all
  have free := (all {} (importedOnce longerItem) (importedOnce longerItem)
    ((importedOnce longerItem).importPostBatch {} [pushedItem]).1 [] [] pushedItem [] [1] 1 rfl
    rfl rfl (List.forall_mem_nil _) ⟨nofun, by decide, by decide⟩).2
  have used : (((importedOnce longerItem).importPostBatch {}
      [pushedItem]).1.flushDirtyDeltas.commentsDB.get? (encodeCommentKey 1 2)).isSome = true := by
    decide
  have counter : ((importedOnce longerItem).importPostBatch {}
      [pushedItem]).1.flushDirtyDeltas.lastSequence 1 = 1 := by
    decide
  unfold NextNumberFree at free
  rw [counter] at free
  rw [show (2 : UInt32) = 1 + 1 from rfl, free] at used
  cases used

theorem same_reimport_overwrites :
    ((importedOnce pushedItem).importPostBatch {} [pushedItem]).1.SameAsFresh 1 pushedItem ∧
      ((importedOnce pushedItem).importPostBatch {}
        [pushedItem]).1.flushDirtyDeltas.NextNumberFree 1 := by
  obtain ⟨reached, imported, view, _deltas⟩ :=
    importPostBatch_single (importedOnce_ok pushedItem (Or.inl rfl))
  have room : CrosspostRoom ({} : Engine).metaDB 1 pushedItem.crossposts.length :=
    ⟨nofun, by decide, by decide⟩
  have held := (congrFun view 1).trans (importPost_view imported room)
  have nothing : (importedOnce pushedItem).NothingLeft 1 pushedItem := by
    refine ⟨by decide, rfl, ?_, by decide, ?_, rfl, ?_⟩
    · intro sequence absent
      have stored := congrFun (congrArg PostView.comments held) sequence
      simp only [PostView.onto, ImportedPostData.freshView, absent] at stored
      exact stored
    · intro name absent
      have stored := congrFun (congrArg PostView.votes held) name
      simp only [PostView.onto, ImportedPostData.freshView, absent] at stored
      exact stored
    · intro sequence absent
      have stored := congrFun (congrArg PostView.crosspostRecords held) sequence
      simp only [PostView.onto, ImportedPostData.freshView, absent, postView] at stored
      exact Option.map_eq_none_iff.mp stored
  have again : (importedOnce pushedItem).importPostBatch {} ([] ++ pushedItem :: []) =
      (((importedOnce pushedItem).importPostBatch {} [pushedItem]).1, .ok [1]) := rfl
  have nobody : (importedOnce pushedItem).importPosts {} [] = (importedOnce pushedItem, .ok []) :=
    rfl
  have left : CrosspostRoom (importedOnce pushedItem).metaDB 1 pushedItem.crossposts.length :=
    ⟨nofun, by decide, by decide⟩
  exact (reimport_overwrites_iff nobody rfl again (List.forall_mem_nil _) left).mpr nothing

end Twice

end Engine

end Pttbbs.PostSvc
