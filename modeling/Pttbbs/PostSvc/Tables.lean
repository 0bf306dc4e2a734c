/-
What the SQLite statements do to the tables.

An insertion that succeeds adds one row under an id that was free.  The rebuild
inserts, for every record of the posts database, the row the record gives.
-/

import Pttbbs.PostSvc.Recovery

namespace Pttbbs.PostSvc

open Pttbbs.Lib

namespace MetaDB

/-! ### Statements -/

theorem findFile_some {metaDB : MetaDB} {community postFile : Bytes} {id : UInt64}
    (found : metaDB.findFile community postFile = some id) :
    ∃ row, metaDB.posts.get? id = some row ∧ row.community = community ∧
      row.postFile = postFile := by
  unfold findFile at found
  obtain ⟨entry, isFirst, rfl⟩ := Option.map_eq_some_iff.mp found
  have member := List.mem_of_find?_eq_some isFirst
  have names := List.find?_some isFirst
  simp only [Bool.and_eq_true, decide_eq_true_eq] at names
  exact ⟨entry.2, (OrderedMap.get?_eq_some_iff _).mpr member, names⟩

theorem chooseID_some {sequence id chosen : UInt64}
    (choice : chooseID sequence (some id) = .ok chosen) : chosen = id ∧ bindable id = true := by
  simp only [chooseID] at choice
  split at choice
  · rename_i bound
    exact ⟨(Except.ok.inj choice).symm, bound⟩
  · cases choice

theorem insertPost_ok {metaDB after : MetaDB} {given : Option UInt64} {row : PostRow}
    {id : UInt64} (inserted : metaDB.insertPost given row = .ok (after, id)) :
    after = metaDB.putPost id row ∧ chooseID metaDB.postsSequence given = .ok id ∧
      metaDB.posts.get? id = none ∧ metaDB.findFile row.community row.postFile = none ∧
      rowBindable row = true := by
  unfold insertPost at inserted
  split at inserted
  · rename_i bound
    split at inserted
    · cases inserted
    · rename_i chosen choice
      split at inserted
      · cases inserted
      · rename_i free
        cases inserted
        simp only [Bool.or_eq_true, Option.isSome_iff_ne_none, not_or, not_not] at free
        exact ⟨rfl, choice, free.1, free.2, bound⟩
  · cases inserted

theorem upsertPost_ok {metaDB after : MetaDB} {given : Option UInt64} {row : PostRow}
    {id : UInt64} (done : metaDB.upsertPost given row = .ok (after, id)) :
    ∃ chosen, chooseID metaDB.postsSequence given = .ok chosen ∧
      ((metaDB.findFile row.community row.postFile = some id ∧
        after = { metaDB with
          posts := metaDB.posts.modify id (fun stored => importOver stored row)
          postsSequence := max metaDB.postsSequence chosen }) ∨
      (id = chosen ∧ metaDB.findFile row.community row.postFile = none ∧
        metaDB.posts.get? id = none ∧ after = metaDB.putPost id row)) := by
  unfold upsertPost at done
  split at done
  · split at done
    · cases done
    · rename_i chosen choice
      refine ⟨chosen, choice, ?_⟩
      split at done
      · rename_i existing found
        cases done
        exact Or.inl ⟨found, rfl⟩
      · rename_i missing
        split at done
        · cases done
        · rename_i free
          cases done
          simp only [Option.isSome_iff_ne_none, not_not] at free
          exact Or.inr ⟨rfl, missing, free, rfl⟩
  · cases done

theorem insertCrosspost_ok {metaDB after : MetaDB} {row : CrosspostRow} {id : UInt64}
    (inserted : metaDB.insertCrosspost row = .ok (after, id)) :
    nextID metaDB.crosspostsSequence = .ok id ∧
      after = { metaDB with
        crossposts := metaDB.crossposts.set id row
        crosspostsSequence := id } ∧
      bindable row.sourcePostID = true ∧ bindable row.creatorID = true := by
  unfold insertCrosspost at inserted
  split at inserted
  · rename_i bound
    simp only [Bool.and_eq_true] at bound
    split at inserted
    · cases inserted
    · rename_i next choice
      cases inserted
      exact ⟨choice, rfl, bound⟩
  · cases inserted

@[simp] theorem get?_putPost_self (metaDB : MetaDB) (id : UInt64) (row : PostRow) :
    (metaDB.putPost id row).posts.get? id = some row :=
  OrderedMap.get?_set_self _ _ _

theorem get?_putPost_of_ne (metaDB : MetaDB) {id other : UInt64} (row : PostRow)
    (different : other ≠ id) :
    (metaDB.putPost id row).posts.get? other = metaDB.posts.get? other :=
  OrderedMap.get?_set_of_ne _ _ different

end MetaDB

/-! ### Keys of the posts database -/

theorem decodePostKey_eq_some_iff {key : Bytes} {id : UInt64} :
    decodePostKey key = some id ↔ key = encodePostKey id := by
  constructor
  · intro decoded
    unfold decodePostKey at decoded
    split at decoded
    · rename_i shape
      cases key with
      | nil => cases shape.1
      | cons head tail =>
          cases decoded
          have headEq : head = letterP := Option.some.inj shape.2
          have wide : tail.length = 8 := by
            have total := shape.1
            rw [List.length_cons] at total
            omega
          unfold encodePostKey
          rw [List.drop_one, List.tail_cons, putUint64_uint64 wide, headEq]
    · cases decoded
  · rintro rfl
    exact decodePostKey_encodePostKey id

theorem encodePostKey_head (id : UInt64) : (encodePostKey id).head? = some letterP := rfl

theorem encodeCrosspostKey_ne_encodePostKey (source id : UInt64) (sequence : UInt32) :
    encodeCrosspostKey source sequence ≠ encodePostKey id := by
  intro same
  have heads := congrArg List.head? same
  exact absurd heads (by simp [encodeCrosspostKey, encodePostKey, letterX, letterP])

namespace Engine

/-! ### The parts of an imported post -/

theorem importComments_frame (postID : UInt64) (comments : List (Comment × Nat))
    (engine : Engine) :
    comments.foldl (importComment postID) engine =
      { engine with
        commentsDB := (comments.foldl (importComment postID) engine).commentsDB } := by
  induction comments generalizing engine with
  | nil => rfl
  | cons first rest ih =>
      rw [List.foldl_cons, ih]
      rfl

theorem importVotes_frame (postID : UInt64) (votes : List VoteRecord) (engine : Engine) :
    votes.foldl (importVote postID) engine =
      { engine with votesDB := (votes.foldl (importVote postID) engine).votesDB } := by
  induction votes generalizing engine with
  | nil => rfl
  | cons first rest ih =>
      rw [List.foldl_cons, ih]
      unfold importVote
      split <;> rfl

structure CrosspostFrame (before after : Engine) : Prop where
  commentsDB : after.commentsDB = before.commentsDB
  votesDB : after.votesDB = before.votesDB
  historyDB : after.historyDB = before.historyDB
  posts : after.metaDB.posts = before.metaDB.posts
  postsSequence : after.metaDB.postsSequence = before.metaDB.postsSequence
  postSeqCounter : after.postSeqCounter = before.postSeqCounter
  postSeqs : after.postSeqs = before.postSeqs
  dirtyDeltas : after.dirtyDeltas = before.dirtyDeltas
  files : after.files = before.files
  others : ∀ key, key.head? ≠ some letterX → after.postsDB.get? key = before.postsDB.get? key

theorem importCrosspost_frame (postID : UInt64) (engine : Engine)
    (numbered : CrosspostRecord × Nat) :
    CrosspostFrame engine (importCrosspost postID engine numbered) := by
  unfold importCrosspost
  dsimp only
  split
  · exact ⟨rfl, rfl, rfl, rfl, rfl, rfl, rfl, rfl, rfl, fun _ _ => rfl⟩
  · rename_i inserted insertion
    obtain ⟨_next, afterEq, _bound⟩ := MetaDB.insertCrosspost_ok insertion
    rw [afterEq]
    refine ⟨rfl, rfl, rfl, rfl, rfl, rfl, rfl, rfl, rfl, fun key notX => ?_⟩
    apply OrderedMap.get?_set_of_ne
    rintro rfl
    exact notX rfl

theorem importCrossposts_frame (postID : UInt64) (crossposts : List (CrosspostRecord × Nat))
    (engine : Engine) :
    CrosspostFrame engine (crossposts.foldl (importCrosspost postID) engine) := by
  induction crossposts generalizing engine with
  | nil => exact ⟨rfl, rfl, rfl, rfl, rfl, rfl, rfl, rfl, rfl, fun _ _ => rfl⟩
  | cons first rest ih =>
      have here := importCrosspost_frame postID engine first
      have later := ih (importCrosspost postID engine first)
      rw [List.foldl_cons]
      exact
        { commentsDB := later.commentsDB.trans here.commentsDB
          votesDB := later.votesDB.trans here.votesDB
          historyDB := later.historyDB.trans here.historyDB
          posts := later.posts.trans here.posts
          postsSequence := later.postsSequence.trans here.postsSequence
          postSeqCounter := later.postSeqCounter.trans here.postSeqCounter
          postSeqs := later.postSeqs.trans here.postSeqs
          dirtyDeltas := later.dirtyDeltas.trans here.dirtyDeltas
          files := later.files.trans here.files
          others := fun key notX => (later.others key notX).trans (here.others key notX) }

theorem candidateID_frame (cfg : Config) (engine : Engine) (post : Post) :
    ∃ counter, (engine.candidateID cfg post).1 = { engine with postSeqCounter := counter } := by
  unfold candidateID
  split
  · exact ⟨_, rfl⟩
  · split
    · exact ⟨_, rfl⟩
    · exact ⟨_, rfl⟩

def importStored (engine : Engine) (counter : UInt64) (metaDB : MetaDB)
    (item : ImportedPostData) (id : UInt64) : Engine :=
  Engine.setPostRecord { engine with postSeqCounter := counter, metaDB := metaDB }
    { item.prepared with id := id }

theorem importPost_ok {cfg : Config} {engine after : Engine} {item : ImportedPostData}
    {id : UInt64} (imported : engine.importPost cfg item = (after, .ok id)) :
    ∃ counter metaDB,
      engine.metaDB.upsertPost (engine.candidateID cfg item.prepared).2
        (importedRow item.prepared) = .ok (metaDB, id) ∧
      after = item.crossposts.zipIdx.foldl (importCrosspost id)
        (item.votes.foldl (importVote id) (item.comments.zipIdx.foldl (importComment id)
          (engine.importStored counter metaDB item id))) := by
  obtain ⟨counter, counted⟩ := candidateID_frame cfg engine item.prepared
  unfold importPost at imported
  dsimp only at imported
  rw [counted] at imported
  cases upserted : engine.metaDB.upsertPost (engine.candidateID cfg item.prepared).2
      (importedRow item.prepared) with
  | error failure =>
      rw [upserted] at imported
      cases imported
  | ok result =>
      rw [upserted] at imported
      dsimp only at imported
      obtain ⟨afterEq, sameID⟩ := Prod.mk.inj imported
      cases sameID
      exact ⟨counter, result.1, rfl, afterEq.symm⟩

/-- An imported item changes the row and record of one post: the one with its
names, or a new one. -/
theorem importPost_rows {cfg : Config} {engine after : Engine} {item : ImportedPostData}
    {id : UInt64} (imported : engine.importPost cfg item = (after, .ok id)) :
    ((∃ row, engine.metaDB.posts.get? id = some row ∧
        row.community = item.post.community ∧ row.postFile = item.post.postFile) ∨
      engine.metaDB.posts.get? id = none) ∧
    (∀ other, other ≠ id → after.metaDB.posts.get? other = engine.metaDB.posts.get? other) ∧
    (∀ other, other ≠ id → after.postsDB.get? (encodePostKey other) =
      engine.postsDB.get? (encodePostKey other)) := by
  obtain ⟨counter, metaDB, upserted, rfl⟩ := importPost_ok imported
  have frame := importCrossposts_frame id item.crossposts.zipIdx
    (item.votes.foldl (importVote id) (item.comments.zipIdx.foldl (importComment id)
      (engine.importStored counter metaDB item id)))
  rw [importVotes_frame, importComments_frame] at frame
  rw [importVotes_frame, importComments_frame]
  have records : ∀ other, other ≠ id →
      (engine.importStored counter metaDB item id).postsDB.get? (encodePostKey other) =
        engine.postsDB.get? (encodePostKey other) := by
    intro other different
    exact OrderedMap.get?_set_of_ne _ _ (fun same => different (encodePostKey_inj.mp same))
  obtain ⟨chosen, _choice, ⟨found, changed⟩ | ⟨_same, _missing, free, added⟩⟩ :=
    MetaDB.upsertPost_ok upserted
  · obtain ⟨row, stored, community, postFile⟩ := MetaDB.findFile_some found
    refine ⟨Or.inl ⟨row, stored, community, postFile⟩, ?_, ?_⟩
    · intro other different
      rw [frame.posts]
      change metaDB.posts.get? other = _
      rw [changed]
      exact OrderedMap.get?_modify_of_ne _ _ different
    · intro other different
      rw [frame.others _ (by rw [encodePostKey_head]; decide)]
      exact records other different
  · refine ⟨Or.inr free, ?_, ?_⟩
    · intro other different
      rw [frame.posts]
      change metaDB.posts.get? other = _
      rw [added]
      exact MetaDB.get?_putPost_of_ne _ _ different
    · intro other different
      rw [frame.others _ (by rw [encodePostKey_head]; decide)]
      exact records other different

/-! ### The rows a rebuild restores -/

theorem restoreEntry_posts {metaDB after : MetaDB} {entry : Bytes × Bytes}
    (restored : restoreEntry metaDB entry = .ok after) (id : UInt64) :
    after.posts.get? id =
      if entry.1 = encodePostKey id then some (rebuiltRow (decodeRFC822Post entry.2).1)
      else metaDB.posts.get? id := by
  unfold restoreEntry at restored
  split at restored
  · rename_i crosspost
    have notPost : entry.1 ≠ encodePostKey id := by
      intro same
      rw [same, encodePostKey_head] at crosspost
      exact absurd crosspost (by decide)
    rw [if_neg notPost]
    cases inserted : metaDB.insertCrosspost (crosspostRow (decodeRFC822Crosspost entry.2)) with
    | error failure =>
        rw [inserted] at restored
        cases restored
    | ok result =>
        rw [inserted] at restored
        cases restored
        obtain ⟨_next, afterEq, _bound⟩ := MetaDB.insertCrosspost_ok inserted
        rw [afterEq]
  · cases decoded : decodePostKey entry.1 with
    | none =>
        rw [decoded] at restored
        cases restored
        have notPost : entry.1 ≠ encodePostKey id := by
          intro same
          rw [same, decodePostKey_encodePostKey] at decoded
          cases decoded
        rw [if_neg notPost]
    | some found =>
        rw [decoded] at restored
        have keyEq := decodePostKey_eq_some_iff.mp decoded
        cases inserted : metaDB.insertPost (some found)
            (rebuiltRow (decodeRFC822Post entry.2).1) with
        | error failure =>
            simp only [inserted] at restored
            cases restored
        | ok result =>
            obtain ⟨_afterEq, choice, _rest⟩ := MetaDB.insertPost_ok inserted
            simp only [inserted] at restored
            cases restored
            have sameID : result.2 = found := (MetaDB.chooseID_some choice).1
            obtain ⟨afterEq, _rest⟩ := MetaDB.insertPost_ok inserted
            rw [afterEq, sameID, keyEq]
            by_cases same : id = found
            · subst same
              rw [if_pos rfl, MetaDB.get?_putPost_self]
            · rw [if_neg (fun equal => same (encodePostKey_inj.mp equal).symm),
                MetaDB.get?_putPost_of_ne _ _ same]

def CrosspostsCounted (metaDB : MetaDB) : Prop :=
  ∀ entry ∈ metaDB.crossposts.entries, entry.1 ≤ metaDB.crosspostsSequence

theorem insertCrosspost_entries {metaDB after : MetaDB} {row : CrosspostRow} {id : UInt64}
    (counted : CrosspostsCounted metaDB)
    (inserted : metaDB.insertCrosspost row = .ok (after, id)) :
    CrosspostsCounted after ∧
      after.crossposts.entries = metaDB.crossposts.entries ++ [(id, row)] := by
  obtain ⟨next, afterEq, _bound⟩ := MetaDB.insertCrosspost_ok inserted
  have above : metaDB.crosspostsSequence < id := by
    unfold MetaDB.nextID at next
    split at next
    · rename_i room
      have unit : (1 : UInt64).toNat = 1 := rfl
      have limit : (0x7fffffffffffffff : UInt64).toNat = 0x7fffffffffffffff := rfl
      rw [UInt64.lt_iff_toNat_lt, limit] at room
      rw [← Except.ok.inj next, UInt64.lt_iff_toNat_lt, UInt64.toNat_add, unit,
        Nat.mod_eq_of_lt (by omega)]
      omega
    · cases next
  have last : ∀ entry ∈ metaDB.crossposts.entries, entry.1 < id := by
    intro entry member
    exact lt_of_le_of_lt (counted entry member) above
  rw [afterEq]
  constructor
  · intro entry member
    rw [OrderedMap.entries_set_last _ _ last] at member
    rcases List.mem_append.mp member with old | new
    · exact le_of_lt (last entry old)
    · rw [List.mem_singleton.mp new]
  · exact OrderedMap.entries_set_last _ _ last

theorem restoreEntry_crossposts {metaDB after : MetaDB} {entry : Bytes × Bytes}
    (counted : CrosspostsCounted metaDB) (restored : restoreEntry metaDB entry = .ok after) :
    CrosspostsCounted after ∧
      after.crossposts.entries.map Prod.snd = metaDB.crossposts.entries.map Prod.snd ++
        (if entry.1.head? = some letterX then [crosspostRow (decodeRFC822Crosspost entry.2)]
          else []) := by
  unfold restoreEntry at restored
  split at restored
  · rename_i crosspost
    cases inserted : metaDB.insertCrosspost (crosspostRow (decodeRFC822Crosspost entry.2)) with
    | error failure =>
        rw [inserted] at restored
        cases restored
    | ok result =>
        rw [inserted] at restored
        cases restored
        obtain ⟨afterCounted, entries⟩ := insertCrosspost_entries counted inserted
        refine ⟨afterCounted, ?_⟩
        rw [entries, List.map_append, if_pos crosspost]
        rfl
  · rename_i other
    rw [if_neg other, List.append_nil]
    split at restored
    · cases restored
      exact ⟨counted, rfl⟩
    · rename_i id decoded
      cases inserted : metaDB.insertPost (some id)
          (rebuiltRow (decodeRFC822Post entry.2).1) with
      | error failure =>
          rw [inserted] at restored
          cases restored
      | ok result =>
          rw [inserted] at restored
          cases restored
          obtain ⟨afterEq, _rest⟩ := MetaDB.insertPost_ok inserted
          rw [afterEq]
          exact ⟨counted, rfl⟩

def restoredCrossposts (entries : List (Bytes × Bytes)) : List CrosspostRow :=
  (entries.filter (fun entry => entry.1.head? = some letterX)).map
    (fun entry => crosspostRow (decodeRFC822Crosspost entry.2))

theorem restoreEntries_crossposts {metaDB after : MetaDB} {entries : List (Bytes × Bytes)}
    (counted : CrosspostsCounted metaDB) (restored : restoreEntries metaDB entries = .ok after) :
    after.crossposts.entries.map Prod.snd =
      metaDB.crossposts.entries.map Prod.snd ++ restoredCrossposts entries := by
  induction entries generalizing metaDB with
  | nil =>
      cases restored
      exact (List.append_nil _).symm
  | cons first rest ih =>
      unfold restoreEntries at restored
      cases here : restoreEntry metaDB first with
      | error failure =>
          rw [here] at restored
          cases restored
      | ok next =>
          rw [here] at restored
          obtain ⟨nextCounted, rows⟩ := restoreEntry_crossposts counted here
          rw [ih nextCounted restored, rows, List.append_assoc]
          unfold restoredCrossposts
          by_cases crosspost : first.1.head? = some letterX
          · rw [if_pos crosspost, List.filter_cons_of_pos (by simpa using crosspost)]
            rfl
          · rw [if_neg crosspost, List.filter_cons_of_neg (by simpa using crosspost)]
            rfl

theorem restoreEntries_posts {metaDB after : MetaDB} {entries : List (Bytes × Bytes)}
    (ordered : entries.Pairwise (fun left right => left.1 < right.1))
    (restored : restoreEntries metaDB entries = .ok after) (id : UInt64) :
    after.posts.get? id =
      match OrderedMap.lookup (encodePostKey id) entries with
      | some value => some (rebuiltRow (decodeRFC822Post value).1)
      | none => metaDB.posts.get? id := by
  induction entries generalizing metaDB with
  | nil =>
      cases restored
      rfl
  | cons entry rest ih =>
      have parts := List.pairwise_cons.mp ordered
      unfold restoreEntries at restored
      cases first : restoreEntry metaDB entry with
      | error failure =>
          rw [first] at restored
          cases restored
      | ok between =>
          rw [first] at restored
          have later := ih parts.2 restored
          rw [restoreEntry_posts first id] at later
          rw [later, OrderedMap.lookup]
          by_cases same : entry.1 = encodePostKey id
          · have absent : OrderedMap.lookup (encodePostKey id) rest = none := by
              cases found : OrderedMap.lookup (encodePostKey id) rest with
              | none => rfl
              | some value =>
                  have member := (OrderedMap.lookup_eq_some_iff parts.2).mp found
                  have less := parts.1 _ member
                  rw [same] at less
                  exact absurd less (lt_irrefl _)
            rw [if_pos same, if_pos same, absent]
          · rw [if_neg same, if_neg same]

theorem rebuild_cases (engine : Engine) :
    (∃ failure, engine.rebuildSQLiteFromPebble = (engine, .error failure)) ∨
      ∃ metaDB counts,
        engine.rebuildSQLiteFromPebble = ({ engine with metaDB := metaDB }, .ok counts) := by
  unfold rebuildSQLiteFromPebble
  dsimp only
  split
  · exact Or.inl ⟨_, rfl⟩
  · split
    · exact Or.inr ⟨_, _, rfl⟩
    · exact Or.inl ⟨_, rfl⟩

theorem rebuild_posts {engine after : Engine} {counts : Nat × Nat}
    (rebuilt : engine.rebuildSQLiteFromPebble = (after, .ok counts)) (id : UInt64) :
    after.metaDB.posts.get? id =
      (engine.postsDB.get? (encodePostKey id)).map (fun value =>
        engine.recount id (rebuiltRow (decodeRFC822Post value).1)) := by
  unfold rebuildSQLiteFromPebble at rebuilt
  cases restored : restoreEntries { engine.metaDB with
      posts := OrderedMap.empty, crossposts := OrderedMap.empty } engine.postsDB.entries with
  | error failure =>
      simp only [restored] at rebuilt
      cases rebuilt
  | ok metaDB =>
      simp only [restored] at rebuilt
      split at rebuilt
      · cases rebuilt
        dsimp only
        rw [OrderedMap.get?_mapValues, restoreEntries_posts engine.postsDB.ordered restored id]
        unfold OrderedMap.get?
        cases OrderedMap.lookup (encodePostKey id) engine.postsDB.entries with
        | none => rfl
        | some value => rfl
      · cases rebuilt

theorem rebuild_crossposts {engine after : Engine} {counts : Nat × Nat}
    (rebuilt : engine.rebuildSQLiteFromPebble = (after, .ok counts)) :
    after.metaDB.crossposts.entries.map Prod.snd =
      restoredCrossposts engine.postsDB.entries := by
  unfold rebuildSQLiteFromPebble at rebuilt
  cases restored : restoreEntries { engine.metaDB with
      posts := OrderedMap.empty, crossposts := OrderedMap.empty } engine.postsDB.entries with
  | error failure =>
      simp only [restored] at rebuilt
      cases rebuilt
  | ok metaDB =>
      simp only [restored] at rebuilt
      split at rebuilt
      · cases rebuilt
        exact restoreEntries_crossposts (by intro entry member; cases member) restored
      · cases rebuilt

end Engine

end Pttbbs.PostSvc
