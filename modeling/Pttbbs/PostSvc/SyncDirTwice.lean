/-
What one run of the synchronisation does, and that a second run does nothing.

A run is a list of entries made of the old records and of the posts without one.  Every
record that comes out is settled: reading it again finds the same post, and writing the
post again changes nothing.
-/

import Pttbbs.PostSvc.SyncDir
import Pttbbs.PostSvc.RebuildAgrees

namespace Pttbbs.PostSvc

open Pttbbs.Lib

/-! ### Fields -/

theorem recordFields_apart (env : SyncEnv) (isBig5 : Bool) (post : Post) :
    (recordFields env isBig5 post).Pairwise FieldWrite.Apart := by
  unfold recordFields countFields
  simp only [List.cons_append, List.nil_append, List.pairwise_cons, List.mem_cons,
    List.not_mem_nil, or_false, forall_eq_or_imp, forall_eq, FieldWrite.Apart, setString,
    putLittle, List.Pairwise.nil, and_true, false_implies, implies_true]
  omega

def storedName (post : Post) : Bytes := cString ((recordName post).take 27)

theorem cString_stringField (value field : Bytes) (positive : 0 < field.length) :
    cString (stringField value field) = cString (value.take (field.length - 1)) := by
  have cut_twice : ∀ text : Bytes, cString (cString text) = cString text := by
    intro text
    exact List.takeWhile_idem
  by_cases held : cString field = value.take (field.length - 1)
  · have same : stringField value field = field := if_pos held
    rw [same, ← held, cut_twice]
  · have padded : stringField value field = value.take (field.length - 1) ++
        List.replicate (field.length - (value.take (field.length - 1)).length) 0 := if_neg held
    rw [padded]
    have more : ∃ count, field.length - (value.take (field.length - 1)).length = count + 1 := by
      rw [List.length_take]
      exact ⟨field.length - min (field.length - 1) value.length - 1, by omega⟩
    obtain ⟨count, some⟩ := more
    rw [some, List.replicate_succ]
    unfold cString
    rw [List.takeWhile_append]
    split
    · rename_i whole
      rw [List.takeWhile_cons_of_neg (by decide), List.append_nil]
      exact (List.takeWhile_sublist _).eq_of_length whole |>.symm
    · rfl

theorem recordKey_fillRecord (env : SyncEnv) (isBig5 : Bool) (post : Post) {record : Bytes}
    (length : record.length = fileHeaderSize) :
    recordKey (fillRecord env isBig5 post record) = isSafeDeletedFilename (storedName post) := by
  have name := FieldWrite.slice_applyAll (recordFields_apart env isBig5 post)
    (show setString 0 28 (recordName post) ∈ recordFields env isBig5 post from
      List.mem_cons_self) record
  have wide : (slice 0 28 record).length = 28 := by
    rw [length_slice, length]
    rfl
  unfold recordKey fillRecord storedName
  change slice 0 28 _ = stringField (recordName post) (slice 0 28 record) at name
  rw [name, cString_stringField _ _ (by omega), wide]

theorem recordKey_setCounts (post : Post) (record : Bytes) :
    recordKey (setCounts post record) = recordKey record := by
  unfold recordKey setCounts
  rw [FieldWrite.slice_applyAll_of_apart]
  intro field member
  simp only [countFields, List.mem_cons, List.not_mem_nil, or_false] at member
  rcases member with rfl | rfl <;> simp [putLittle]

theorem length_fillRecord (env : SyncEnv) (isBig5 : Bool) (post : Post) (record : Bytes) :
    (fillRecord env isBig5 post record).length = record.length :=
  FieldWrite.length_applyAll _ _

theorem fillRecord_fillRecord (env : SyncEnv) (isBig5 : Bool) (post : Post) (record : Bytes) :
    fillRecord env isBig5 post (fillRecord env isBig5 post record) =
      fillRecord env isBig5 post record :=
  FieldWrite.applyAll_applyAll (recordFields_apart env isBig5 post) record

theorem setCounts_fillRecord (env : SyncEnv) (isBig5 : Bool) (post : Post) (record : Bytes) :
    setCounts post (fillRecord env isBig5 post record) = fillRecord env isBig5 post record :=
  FieldWrite.applyAll_of_subset (recordFields_apart env isBig5 post)
    (fun _ member => List.mem_append_right _ member) record

theorem setCounts_setCounts (post : Post) (record : Bytes) :
    setCounts post (setCounts post record) = setCounts post record := by
  apply FieldWrite.applyAll_applyAll
  simp only [countFields, List.pairwise_cons, List.mem_cons, List.not_mem_nil, or_false,
    forall_eq, FieldWrite.Apart, putLittle, List.Pairwise.nil, and_true, false_implies,
    implies_true]
  decide

/-- The bytes that a run may write: the counters, and with `Full` all but the padding. -/
def ownedByte (opts : SyncDirOptions) (index : Nat) : Bool :=
  if opts.full then index ≠ 119 else index ∈ [32, 33, 126, 127]

theorem syncedRecord_unowned (env : SyncEnv) (opts : SyncDirOptions) (found : Option Post)
    {record : Bytes} {index : Nat} (unowned : ownedByte opts index = false) :
    (syncedRecord env opts found record)[index]? = record[index]? := by
  cases found with
  | none => rfl
  | some post =>
      unfold syncedRecord
      unfold ownedByte at unowned
      cases full : opts.full with
      | true =>
          rw [full, if_pos rfl] at unowned
          simp only [decide_eq_false_iff_not, not_not] at unowned
          subst unowned
          apply FieldWrite.getElem?_applyAll_of_outside
          unfold recordFields countFields
          simp only [List.cons_append, List.nil_append, List.mem_cons, List.not_mem_nil, or_false,
            forall_eq_or_imp, forall_eq, setString, putLittle]
          omega
      | false =>
          rw [full] at unowned
          simp only [Bool.false_eq_true, if_false, List.mem_cons, List.not_mem_nil, or_false,
            decide_eq_false_iff_not, not_or] at unowned
          apply FieldWrite.getElem?_applyAll_of_outside
          unfold countFields
          simp only [List.mem_cons, List.not_mem_nil, or_false, forall_eq_or_imp, forall_eq,
            putLittle]
          omega

theorem length_syncedRecord (env : SyncEnv) (opts : SyncDirOptions) (found : Option Post)
    (record : Bytes) : (syncedRecord env opts found record).length = record.length := by
  unfold syncedRecord
  cases found with
  | none => rfl
  | some post =>
      dsimp only
      split
      · exact length_fillRecord _ _ _ _
      · exact FieldWrite.length_applyAll _ _

/-! ### The entries of a run -/

section Run

variable (env : SyncEnv) (opts : SyncDirOptions) (posts : List Post)

def foundPost (record : Bytes) : Option Post := byFile posts (recordKey record).1

def isPruned (record : Bytes) : Bool :=
  opts.prune && ((recordKey record).2 || (foundPost posts record).any Post.deletedOrRemoved)

def synced (record : Bytes) : Bytes := syncedRecord env opts (foundPost posts record) record

def keptEntry (record : Bytes) : DirEntry :=
  ⟨synced env opts posts record, stampTime (recordKey record).1,
    synced env opts posts record ≠ record⟩

def keptRecords (records : List Bytes) : List Bytes :=
  records.filter fun record => !isPruned opts posts record

def seenKeys (records : List Bytes) : List Bytes := records.map fun record => (recordKey record).1

theorem syncRecord_eq (state : SyncState) (record : Bytes) :
    syncRecord env opts posts state record =
      ⟨{ state.stats with
          records := state.stats.records + 1
          matched := state.stats.matched + if (foundPost posts record).isSome then 1 else 0
          pruned := state.stats.pruned + if isPruned opts posts record then 1 else 0
          updated := state.stats.updated +
            (keptRecords opts posts [record]).countP
              fun record => synced env opts posts record ≠ record },
        (recordKey record).1 :: state.seen,
        state.entries ++ (keptRecords opts posts [record]).map (keptEntry env opts posts)⟩ := by
  unfold syncRecord
  cases prunedHere : isPruned opts posts record with
  | true =>
      have guard : (opts.prune && ((recordKey record).2 ||
          (byFile posts (recordKey record).1).any Post.deletedOrRemoved)) = true := prunedHere
      cases known : (byFile posts (recordKey record).1).isSome <;>
        simp [guard, keptRecords, prunedHere, foundPost, known]
  | false =>
      have guard : (opts.prune && ((recordKey record).2 ||
          (byFile posts (recordKey record).1).any Post.deletedOrRemoved)) = false := prunedHere
      by_cases same : syncedRecord env opts (byFile posts (recordKey record).1) record = record <;>
        cases known : (byFile posts (recordKey record).1).isSome <;>
        simp [guard, keptRecords, prunedHere, foundPost, keptEntry, synced, same, known]

theorem syncRecords_eq (records : List Bytes) (state : SyncState) :
    records.foldl (syncRecord env opts posts) state =
      ⟨{ state.stats with
          records := state.stats.records + records.length
          matched := state.stats.matched +
            records.countP fun record => (foundPost posts record).isSome
          pruned := state.stats.pruned + records.countP (isPruned opts posts)
          updated := state.stats.updated +
            (keptRecords opts posts records).countP
              fun record => synced env opts posts record ≠ record },
        (seenKeys records).reverse ++ state.seen,
        state.entries ++ (keptRecords opts posts records).map (keptEntry env opts posts)⟩ := by
  induction records generalizing state with
  | nil => simp [keptRecords, seenKeys]
  | cons record rest ih =>
      have split : keptRecords opts posts (record :: rest) =
          keptRecords opts posts [record] ++ keptRecords opts posts rest :=
        List.filter_append [record] rest
      rw [List.foldl_cons, ih, syncRecord_eq, split]
      simp only [List.length_cons, List.countP_cons, List.countP_append, List.map_append,
        List.append_assoc, seenKeys, List.map_cons, List.reverse_cons, List.singleton_append,
        SyncState.mk.injEq, SyncDirStats.mk.injEq, and_true]
      omega

end Run

theorem mergeByTime_nil (entries : List DirEntry) : mergeByTime entries [] = entries := by
  induction entries with
  | nil => rfl
  | cons entry rest ih =>
      unfold mergeByTime
      simp only [List.takeWhile_nil, ite_self, List.nil_append, List.length_nil, List.drop_nil, ih]

theorem writeInPlace_eq {entries : List DirEntry} {records : List Bytes}
    (paired : List.Forall₂ (fun entry record => record.length = fileHeaderSize ∧
      entry.record.length = fileHeaderSize ∧ (entry.changed = false → entry.record = record))
      entries records) :
    writeInPlace records.flatten entries = (entries.map DirEntry.record).flatten := by
  -- The entries before the current one are already as they will be.
  have from_on : ∀ (before : List Bytes), (∀ record ∈ before, record.length = fileHeaderSize) →
      (entries.zipIdx before.length).foldl (fun data entry =>
        if entry.1.changed then writeAt (entry.2 * fileHeaderSize) entry.1.record data else data)
        (before.flatten ++ records.flatten) =
      before.flatten ++ (entries.map DirEntry.record).flatten := by
    induction paired with
    | nil =>
        intro before _
        rfl
    | @cons entry record entries records here _ ih =>
        intro before lengths
        obtain ⟨length, newLength, unchanged⟩ := here
        have offset : before.length * fileHeaderSize = before.flatten.length :=
          (length_flatten_of_lengths lengths).symm
        have written : (if entry.changed then
              writeAt (before.length * fileHeaderSize) entry.record
                (before.flatten ++ (record :: records).flatten)
            else before.flatten ++ (record :: records).flatten) =
            (before ++ [entry.record]).flatten ++ records.flatten := by
          rw [List.flatten_cons, List.flatten_append, List.flatten_singleton, List.append_assoc]
          cases change : entry.changed with
          | true =>
              rw [if_pos rfl, offset, writeAt_middle _ _ _ _ (newLength.trans length.symm)]
          | false => rw [if_neg (by decide), unchanged change]
        have next := ih (before ++ [entry.record]) (by
          intro other member
          rcases List.mem_append.mp member with earlier | last
          · exact lengths other earlier
          · rw [List.mem_singleton.mp last]
            exact newLength)
        rw [List.length_append, List.length_singleton] at next
        rw [List.zipIdx_cons, List.foldl_cons, written, next, List.flatten_append,
          List.flatten_singleton, List.map_cons, List.flatten_cons, List.append_assoc]
  have whole := from_on [] nofun
  simpa only [writeInPlace, List.flatten_nil, List.nil_append, List.length_nil] using whole

section Run

variable (env : SyncEnv) (opts : SyncDirOptions) (posts : List Post)

def addedPosts (records : List Bytes) : List Post :=
  if opts.addMissing then missingPosts posts (seenKeys records) else []

def addedEntries (records : List Bytes) : List DirEntry :=
  sortByTime ((addedPosts opts posts records).map (missingEntry env opts))

def keptEntries (records : List Bytes) : List DirEntry :=
  (keptRecords opts posts records).map (keptEntry env opts posts)

def newRecords (records : List Bytes) : List Bytes :=
  (mergeByTime (keptEntries env opts posts records) (addedEntries env opts posts records)).map
    DirEntry.record

def updatedCount (records : List Bytes) : Nat :=
  (keptRecords opts posts records).countP fun record => synced env opts posts record ≠ record

def runStats (records : List Bytes) : SyncDirStats where
  records := records.length
  matched := records.countP fun record => (foundPost posts record).isSome
  updated := updatedCount env opts posts records
  pruned := records.countP (isPruned opts posts)
  added := (addedPosts opts posts records).length
  addedNoFile := (addedPosts opts posts records).countP fun post => !env.fileExists post.postFile

theorem missingPosts_reverse (seen : List Bytes) :
    missingPosts posts seen.reverse = missingPosts posts seen := by
  unfold missingPosts
  simp only [List.contains_reverse]

theorem syncState_eq (records : List Bytes) :
    (if opts.addMissing then
        addMissing env opts posts (records.foldl (syncRecord env opts posts) {})
      else records.foldl (syncRecord env opts posts) {}) =
      ⟨runStats env opts posts records, (seenKeys records).reverse,
        mergeByTime (keptEntries env opts posts records)
          (addedEntries env opts posts records)⟩ := by
  rw [syncRecords_eq]
  unfold addedEntries runStats addedPosts
  cases add : opts.addMissing with
  | true =>
      simp [addMissing, missingPosts_reverse, keptEntries, updatedCount]
  | false =>
      have none : sortByTime [] = [] := List.mergeSort_nil
      simp [none, mergeByTime_nil, keptEntries, updatedCount]

end Run

section Run

variable {env : SyncEnv} {opts : SyncDirOptions} {posts : List Post}

theorem keptRecords_of_unpruned {records : List Bytes}
    (unpruned : ∀ record ∈ records, isPruned opts posts record = false) :
    keptRecords opts posts records = records := by
  apply List.filter_eq_self.mpr
  intro record member
  rw [unpruned record member]
  rfl

theorem newRecords_of_quiet {records : List Bytes}
    (unpruned : ∀ record ∈ records, isPruned opts posts record = false)
    (same : ∀ record ∈ records, synced env opts posts record = record)
    (none : addedPosts opts posts records = []) : newRecords env opts posts records = records := by
  unfold newRecords keptEntries addedEntries
  have sorted : sortByTime [] = [] := List.mergeSort_nil
  rw [none, List.map_nil, sorted, mergeByTime_nil, keptRecords_of_unpruned unpruned,
    List.map_map]
  exact (List.map_congr_left same).trans (List.map_id _)

theorem keptEntries_inPlace {records : List Bytes}
    (lengths : ∀ record ∈ records, record.length = fileHeaderSize) :
    List.Forall₂ (fun entry record => record.length = fileHeaderSize ∧
      entry.record.length = fileHeaderSize ∧ (entry.changed = false → entry.record = record))
      (records.map (keptEntry env opts posts)) records := by
  rw [List.forall₂_map_left_iff, List.forall₂_same]
  intro record member
  have length := lengths record member
  refine ⟨length, (length_syncedRecord _ _ _ _).trans length, ?_⟩
  intro unchanged
  simpa [keptEntry] using unchanged

theorem syncDir_eq (data : Bytes) (whole : data.length % fileHeaderSize = 0)
    (wet : opts.dryRun = false) :
    syncDir env opts posts data =
      some (runStats env opts posts (chunksOf fileHeaderSize data),
        (newRecords env opts posts (chunksOf fileHeaderSize data)).flatten) := by
  have positive : 0 < fileHeaderSize := by decide
  have lengths : ∀ record ∈ chunksOf fileHeaderSize data, record.length = fileHeaderSize :=
    fun record member => length_of_mem_chunksOf member
  have file := flatten_chunksOf positive data whole
  unfold syncDir
  rw [if_neg (not_not.mpr whole)]
  simp only [syncState_eq, wet, Bool.false_or]
  generalize records_eq : chunksOf fileHeaderSize data = records at *
  split
  · rename_i quiet
    simp only [decide_eq_true_eq, runStats, Nat.add_eq_zero_iff, updatedCount,
      List.countP_eq_zero, List.length_eq_zero_iff] at quiet
    obtain ⟨⟨unchanged, unpruned⟩, none⟩ := quiet
    have notPruned : ∀ record ∈ records, isPruned opts posts record = false :=
      fun record member => Bool.eq_false_iff.mpr (unpruned record member)
    rw [keptRecords_of_unpruned notPruned] at unchanged
    rw [newRecords_of_quiet notPruned _ none, file]
    intro record member
    simpa using unchanged record member
  · split
    · rename_i inPlace
      simp only [Bool.and_eq_true, Bool.not_eq_true'] at inPlace
      have notPruned : ∀ record ∈ records, isPruned opts posts record = false := by
        intro record _
        unfold isPruned
        rw [inPlace.1]
        rfl
      have none : addedEntries env opts posts records = [] := by
        unfold addedEntries addedPosts
        rw [inPlace.2]
        exact List.mergeSort_nil
      unfold newRecords keptEntries
      rw [none, mergeByTime_nil, keptRecords_of_unpruned notPruned, ← file,
        writeInPlace_eq (keptEntries_inPlace lengths)]
    · rfl

end Run

/-! ### Finding the post of a record -/

theorem byFile_append (posts : List Post) (post : Post) (name : Bytes) :
    byFile (posts ++ [post]) name = if post.postFile = name then some post else byFile posts name := by
  unfold byFile
  rw [List.foldl_append]
  rfl

theorem byFile_some {posts : List Post} {name : Bytes} {post : Post}
    (found : byFile posts name = some post) : post ∈ posts ∧ post.postFile = name := by
  induction posts using List.reverseRecOn with
  | nil => cases found
  | append_singleton rest last ih =>
      rw [byFile_append] at found
      split at found
      · rename_i named
        cases found
        exact ⟨List.mem_append_right _ List.mem_cons_self, named⟩
      · obtain ⟨member, named⟩ := ih found
        exact ⟨List.mem_append_left _ member, named⟩

theorem byFile_isSome {posts : List Post} {post : Post} (member : post ∈ posts) :
    ∃ found, byFile posts post.postFile = some found := by
  induction posts using List.reverseRecOn with
  | nil => cases member
  | append_singleton rest last ih =>
      rw [byFile_append]
      by_cases named : last.postFile = post.postFile
      · exact ⟨last, if_pos named⟩
      · rw [if_neg named]
        rcases List.mem_append.mp member with earlier | here
        · exact ih earlier
        · rw [List.mem_singleton.mp here] at named
          exact absurd rfl named

def FilesApart (posts : List Post) : Prop := (posts.map Post.postFile).Nodup

theorem byFile_self {posts : List Post} (apart : FilesApart posts) {post : Post}
    (member : post ∈ posts) : byFile posts post.postFile = some post := by
  obtain ⟨found, known⟩ := byFile_isSome member
  obtain ⟨inside, named⟩ := byFile_some known
  rw [known, List.inj_on_of_nodup_map apart inside member named]

/-! ### Names -/

/-- The name fits a record and does not look like that of a deleted one. -/
structure FitsRecord (name : Bytes) : Prop where
  longer : 2 < name.length
  short : name.length < 28
  whole : 0 ∉ name
  plain : name.take 2 ≠ utf8 ".d"

theorem cString_of_whole {text : Bytes} (whole : 0 ∉ text) : cString text = text := by
  apply List.takeWhile_eq_self_iff.mpr
  intro byte member
  exact decide_eq_true fun zero => whole (zero ▸ member)

theorem key_live {post : Post} (fits : FitsRecord post.postFile)
    (live : post.deletedOrRemoved = false) :
    isSafeDeletedFilename (storedName post) = (post.postFile, false) := by
  have name : storedName post = post.postFile := by
    unfold storedName recordName
    rw [live, if_neg (by decide), List.take_of_length_le (Nat.le_of_lt_succ fits.short),
      cString_of_whole fits.whole]
  rw [name]
  unfold isSafeDeletedFilename
  rw [if_neg]
  simp only [Bool.and_eq_true, decide_eq_true_eq, not_and]
  exact fun _ => fits.plain

theorem key_deleted {post : Post} (fits : FitsRecord post.postFile)
    (deleted : post.deletedOrRemoved = true) :
    isSafeDeletedFilename (storedName post) = (utf8 "M." ++ post.postFile.drop 2, true) := by
  have stem : (utf8 ".d").length = 2 := by decide
  have length : (utf8 ".d" ++ post.postFile.drop 2).length = post.postFile.length := by
    rw [List.length_append, stem, List.length_drop]
    have := fits.longer
    omega
  have name : storedName post = utf8 ".d" ++ post.postFile.drop 2 := by
    unfold storedName recordName
    rw [if_pos deleted, List.take_of_length_le (by rw [length]; have := fits.short; omega)]
    apply cString_of_whole
    rw [List.mem_append]
    rintro (inStem | inRest)
    · exact absurd inStem (by decide)
    · exact fits.whole (List.mem_of_mem_drop inRest)
  rw [name]
  unfold isSafeDeletedFilename
  have front : (utf8 ".d" ++ post.postFile.drop 2).take 2 = utf8 ".d" := by
    rw [← stem, List.take_left]
  have back : (utf8 ".d" ++ post.postFile.drop 2).drop 2 = post.postFile.drop 2 := by
    rw [← stem, List.drop_left]
  rw [if_pos, back]
  rw [length, front]
  simp only [Bool.and_eq_true, decide_eq_true_eq]
  exact ⟨fits.longer, trivial⟩

/-! ### Records that a second run leaves alone -/

structure Syncable (opts : SyncDirOptions) (posts : List Post) (records : List Bytes) : Prop where
  fits : (opts.full || opts.addMissing) = true → ∀ post ∈ posts, FitsRecord post.postFile
  /-- With `Full`, no post has the name that the record of a deleted one is read as. -/
  deleted : opts.full = true → opts.prune = false → ∀ post ∈ posts,
    post.deletedOrRemoved = true → ∀ other ∈ posts,
      other.postFile = utf8 "M." ++ post.postFile.drop 2 → other = post
  /-- When entries are both removed and added, no safe deletion has been undone. -/
  restored : opts.prune = true → opts.addMissing = true → ∀ record ∈ records,
    (recordKey record).2 = true → ∀ post ∈ posts, post.postFile = (recordKey record).1 →
      post.deletedOrRemoved = true

section Settled

variable {env : SyncEnv} {opts : SyncDirOptions} {posts : List Post}

structure Settled (env : SyncEnv) (opts : SyncDirOptions) (posts : List Post) (record : Bytes) :
    Prop where
  kept : isPruned opts posts record = false
  same : synced env opts posts record = record

theorem settled_live (apart : FilesApart posts) {post : Post} (member : post ∈ posts)
    (fits : FitsRecord post.postFile) (live : post.deletedOrRemoved = false) {record : Bytes}
    (length : record.length = fileHeaderSize) :
    Settled env opts posts (fillRecord env opts.isBig5 post record) := by
  have key := (recordKey_fillRecord env opts.isBig5 post length).trans (key_live fits live)
  have found : foundPost posts (fillRecord env opts.isBig5 post record) = some post := by
    unfold foundPost
    rw [key]
    exact byFile_self apart member
  constructor
  · unfold isPruned
    rw [found, key]
    simp [live]
  · unfold synced syncedRecord
    rw [found]
    dsimp only
    split
    · exact fillRecord_fillRecord _ _ _ _
    · exact setCounts_fillRecord _ _ _ _

theorem settled_synced (apart : FilesApart posts) {records : List Bytes}
    (syncable : Syncable opts posts records) {record : Bytes}
    (length : record.length = fileHeaderSize) (kept : isPruned opts posts record = false) :
    Settled env opts posts (synced env opts posts record) := by
  unfold synced syncedRecord
  cases found : foundPost posts record with
  | none =>
      refine ⟨kept, ?_⟩
      unfold synced syncedRecord
      rw [found]
  | some post =>
      obtain ⟨member, named⟩ := byFile_some found
      dsimp only
      cases full : opts.full with
      | false =>
          rw [if_neg (by decide)]
          have key := recordKey_setCounts post record
          have again : foundPost posts (setCounts post record) = some post := by
            unfold foundPost
            rw [key]
            exact found
          constructor
          · unfold isPruned at kept ⊢
            rw [again, key]
            rwa [found] at kept
          · unfold synced syncedRecord
            rw [again]
            dsimp only
            rw [full, if_neg (by decide), setCounts_setCounts]
      | true =>
          rw [if_pos rfl]
          have fits := syncable.fits (by rw [full]; rfl) post member
          cases state : post.deletedOrRemoved with
          | false => exact settled_live apart member fits state length
          | true =>
              -- A deleted post is still there only when nothing is pruned.
              have unpruned : opts.prune = false := by
                unfold isPruned at kept
                rw [found] at kept
                simpa [state] using kept
              have key := (recordKey_fillRecord env opts.isBig5 post length).trans
                (key_deleted fits state)
              constructor
              · unfold isPruned
                rw [unpruned]
                rfl
              · unfold synced syncedRecord
                cases again : foundPost posts (fillRecord env opts.isBig5 post record) with
                | none => rfl
                | some other =>
                    obtain ⟨inside, read⟩ := byFile_some again
                    rw [key] at read
                    have same := syncable.deleted full unpruned post member state other inside
                      read
                    subst same
                    dsimp only
                    rw [full, if_pos rfl, fillRecord_fillRecord]

end Settled

/-! ### The merge -/

def newer (time : Int64) (entry : DirEntry) : Bool := 0 < entry.time && time < entry.time

def olderThan (entry : DirEntry) (missing : List DirEntry) : List DirEntry :=
  if 0 < entry.time then missing.takeWhile fun other => other.time < entry.time else []

theorem mergeByTime_cons (entry : DirEntry) (rest missing : List DirEntry) :
    mergeByTime (entry :: rest) missing = olderThan entry missing ++
      entry :: mergeByTime rest (missing.drop (olderThan entry missing).length) := rfl

theorem olderThan_append_drop (entry : DirEntry) (missing : List DirEntry) :
    olderThan entry missing ++ missing.drop (olderThan entry missing).length = missing := by
  apply List.prefix_iff_eq_append.mp
  unfold olderThan
  split
  · exact List.takeWhile_prefix _
  · exact List.nil_prefix

theorem mergeByTime_perm (entries missing : List DirEntry) :
    (mergeByTime entries missing).Perm (entries ++ missing) := by
  induction entries generalizing missing with
  | nil => exact List.Perm.refl _
  | cons entry rest ih =>
      rw [mergeByTime_cons]
      have later := ih (missing.drop (olderThan entry missing).length)
      refine List.perm_middle.trans (List.Perm.cons entry ?_)
      refine (later.append_left _).trans ?_
      rw [← List.append_assoc]
      refine (List.perm_append_comm.append_right _).trans ?_
      rw [List.append_assoc, olderThan_append_drop]
      exact List.Perm.refl _

theorem mergeByTime_sublist (entries missing : List DirEntry) :
    entries.Sublist (mergeByTime entries missing) := by
  induction entries generalizing missing with
  | nil => exact List.nil_sublist _
  | cons entry rest ih =>
      rw [mergeByTime_cons]
      exact ((ih _).cons_cons entry).trans (List.sublist_append_right _ _)

theorem olderThan_of_newer {entry missed : DirEntry} {early late : List DirEntry}
    (isNewer : newer missed.time entry = true) (sorted : ∀ other ∈ early, other.time ≤ missed.time) :
    olderThan entry (early ++ missed :: late) = early ++ missed :: olderThan entry late := by
  unfold newer at isNewer
  rw [Bool.and_eq_true, decide_eq_true_eq, decide_eq_true_eq] at isNewer
  unfold olderThan
  rw [if_pos isNewer.1, if_pos isNewer.1, List.takeWhile_append_of_pos]
  · rw [List.takeWhile_cons_of_pos (by simpa using isNewer.2)]
  · intro other member
    exact decide_eq_true (lt_of_le_of_lt (sorted other member) isNewer.2)

theorem olderThan_of_not_newer {entry missed : DirEntry} {early late : List DirEntry}
    (notNewer : newer missed.time entry = false) :
    olderThan entry (early ++ missed :: late) = olderThan entry early := by
  unfold olderThan
  by_cases stamped : 0 < entry.time
  · have stop : ¬ missed.time < entry.time := by
      intro less
      unfold newer at notNewer
      rw [decide_eq_true stamped, decide_eq_true less] at notNewer
      cases notNewer
    rw [if_pos stamped, if_pos stamped]
    induction early with
    | nil => rw [List.nil_append, List.takeWhile_cons_of_neg (by simpa using stop)]; rfl
    | cons first rest ih =>
        rw [List.cons_append, List.takeWhile_cons, List.takeWhile_cons, ih]
  · rw [if_neg stamped, if_neg stamped]

theorem mergeByTime_split {missed : DirEntry} {entries early late : List DirEntry}
    (sorted : ∀ other ∈ early, other.time ≤ missed.time) :
    mergeByTime entries (early ++ missed :: late) =
      mergeByTime (entries.takeWhile fun entry => !newer missed.time entry) early ++
        missed :: mergeByTime (entries.dropWhile fun entry => !newer missed.time entry) late := by
  induction entries generalizing early with
  | nil => rfl
  | cons entry rest ih =>
      cases isNewer : newer missed.time entry with
      | true =>
          rw [List.takeWhile_cons_of_neg (by rw [isNewer]; decide),
            List.dropWhile_cons_of_neg (by rw [isNewer]; decide), mergeByTime_cons,
            olderThan_of_newer isNewer sorted, mergeByTime_cons]
          have left : (early ++ missed :: late).drop
              (early ++ missed :: olderThan entry late).length =
              late.drop (olderThan entry late).length := by
            rw [List.length_append, ← List.drop_drop, List.drop_left, List.length_cons,
              List.drop_succ_cons]
          rw [left, List.append_assoc]
          rfl
      | false =>
          rw [List.takeWhile_cons_of_pos (by rw [isNewer]; rfl),
            List.dropWhile_cons_of_pos (by rw [isNewer]; rfl), mergeByTime_cons,
            olderThan_of_not_newer isNewer, mergeByTime_cons]
          have split := olderThan_append_drop entry early
          have within : (olderThan entry early).length ≤ early.length := by
            have total := congrArg List.length split
            rw [List.length_append] at total
            omega
          rw [List.drop_append_of_le_length within,
            ih (fun other member => sorted other (List.mem_of_mem_drop member)),
            List.append_assoc]
          rfl

/-! ### One run -/

section Once

variable {env : SyncEnv} {opts : SyncDirOptions} {posts : List Post} {records : List Bytes}

def freshRecord (env : SyncEnv) (opts : SyncDirOptions) (post : Post) : Bytes :=
  fillRecord env opts.isBig5 post (List.replicate fileHeaderSize 0)

theorem recordKey_freshRecord (env : SyncEnv) (opts : SyncDirOptions) (post : Post) :
    recordKey (freshRecord env opts post) = isSafeDeletedFilename (storedName post) :=
  recordKey_fillRecord env opts.isBig5 post List.length_replicate

theorem newRecords_perm (env : SyncEnv) (opts : SyncDirOptions) (posts : List Post)
    (records : List Bytes) :
    (newRecords env opts posts records).Perm
      ((keptRecords opts posts records).map (synced env opts posts) ++
        (addedPosts opts posts records).map (freshRecord env opts)) := by
  have merged := (mergeByTime_perm (keptEntries env opts posts records)
    (addedEntries env opts posts records)).map DirEntry.record
  rw [List.map_append] at merged
  refine merged.trans (List.Perm.append ?_ ?_)
  · unfold keptEntries
    rw [List.map_map]
    exact List.Perm.refl _
  · refine ((List.mergeSort_perm _ _).map DirEntry.record).trans ?_
    rw [List.map_map]
    exact List.Perm.refl _

theorem keptRecords_sublist (env : SyncEnv) (opts : SyncDirOptions) (posts : List Post)
    (records : List Bytes) :
    ((keptRecords opts posts records).map (synced env opts posts)).Sublist
      (newRecords env opts posts records) := by
  have inside := (mergeByTime_sublist (keptEntries env opts posts records)
    (addedEntries env opts posts records)).map DirEntry.record
  unfold keptEntries at inside
  rw [List.map_map] at inside
  exact inside

theorem mem_addedPosts {post : Post} :
    post ∈ addedPosts opts posts records ↔ opts.addMissing = true ∧ post ∈ posts ∧
      post.deletedOrRemoved = false ∧ post.postFile ∉ seenKeys records := by
  unfold addedPosts missingPosts
  cases opts.addMissing with
  | false => simp
  | true =>
      simp only [if_true, List.mem_filter, Bool.not_eq_true', Bool.or_eq_false_iff,
        List.contains_eq_mem, decide_eq_false_iff_not, true_and]
      tauto

theorem length_of_mem_newRecords
    (lengths : ∀ record ∈ records, record.length = fileHeaderSize) :
    ∀ record ∈ newRecords env opts posts records, record.length = fileHeaderSize := by
  intro record member
  rw [(newRecords_perm env opts posts records).mem_iff, List.mem_append] at member
  rcases member with kept | fresh
  · obtain ⟨old, inside, rfl⟩ := List.mem_map.mp kept
    exact (length_syncedRecord _ _ _ _).trans (lengths old (List.mem_filter.mp inside).1)
  · obtain ⟨post, _inside, rfl⟩ := List.mem_map.mp fresh
    rw [freshRecord, length_fillRecord, List.length_replicate]

theorem settled_newRecords (apart : FilesApart posts) (syncable : Syncable opts posts records)
    (lengths : ∀ record ∈ records, record.length = fileHeaderSize) :
    ∀ record ∈ newRecords env opts posts records, Settled env opts posts record := by
  intro record member
  rw [(newRecords_perm env opts posts records).mem_iff, List.mem_append] at member
  rcases member with kept | fresh
  · obtain ⟨old, inside, rfl⟩ := List.mem_map.mp kept
    obtain ⟨present, unpruned⟩ := List.mem_filter.mp inside
    exact settled_synced apart syncable (lengths old present) (by simpa using unpruned)
  · obtain ⟨post, inside, rfl⟩ := List.mem_map.mp fresh
    obtain ⟨adding, present, live, _unseen⟩ := mem_addedPosts.mp inside
    exact settled_live apart present (syncable.fits (by rw [adding, Bool.or_true]) post present)
      live List.length_replicate

theorem live_kept (apart : FilesApart posts) (syncable : Syncable opts posts records)
    (adding : opts.addMissing = true) {post : Post} (member : post ∈ posts)
    (live : post.deletedOrRemoved = false) {record : Bytes} (present : record ∈ records)
    (named : (recordKey record).1 = post.postFile) : isPruned opts posts record = false := by
  unfold isPruned foundPost
  rw [named, byFile_self apart member]
  cases pruning : opts.prune with
  | false => rfl
  | true =>
      cases safe : (recordKey record).2 with
      | false => simp [live]
      | true =>
          have deleted := syncable.restored pruning adding record present safe post member
            named.symm
          rw [live] at deleted
          cases deleted

theorem synced_names_iff (apart : FilesApart posts) (syncable : Syncable opts posts records)
    {post : Post} (member : post ∈ posts) (live : post.deletedOrRemoved = false)
    {record : Bytes} (length : record.length = fileHeaderSize)
    (kept : isPruned opts posts record = false) :
    (recordKey (synced env opts posts record)).1 = post.postFile ↔
      (recordKey record).1 = post.postFile := by
  unfold synced syncedRecord
  cases found : foundPost posts record with
  | none => rfl
  | some other =>
      obtain ⟨inside, named⟩ := byFile_some found
      dsimp only
      cases full : opts.full with
      | false =>
          rw [if_neg (by decide), recordKey_setCounts]
      | true =>
          rw [if_pos rfl, recordKey_fillRecord _ _ _ length, ← named]
          have fits := syncable.fits (by rw [full]; rfl) other inside
          cases state : other.deletedOrRemoved with
          | false => rw [key_live fits state]
          | true =>
              have unpruned : opts.prune = false := by
                unfold isPruned at kept
                rw [found] at kept
                simpa [state] using kept
              rw [key_deleted fits state]
              constructor
              · intro read
                have same := syncable.deleted full unpruned other inside state post member
                  read.symm
                rw [same, state] at live
                cases live
              · intro same
                have equal := List.inj_on_of_nodup_map apart inside member same
                rw [← equal, state] at live
                cases live

def recordsOf (post : Post) (records : List Bytes) : Nat :=
  records.countP fun record => (recordKey record).1 = post.postFile

theorem recordsOf_pos_iff (post : Post) (records : List Bytes) :
    0 < recordsOf post records ↔ post.postFile ∈ seenKeys records := by
  unfold recordsOf seenKeys
  rw [List.countP_pos_iff, List.mem_map]
  simp only [decide_eq_true_eq]

section

variable (apart : FilesApart posts) (syncable : Syncable opts posts records)

include apart syncable

theorem recordsOf_kept (lengths : ∀ record ∈ records, record.length = fileHeaderSize)
    (adding : opts.addMissing = true) {post : Post} (member : post ∈ posts)
    (live : post.deletedOrRemoved = false) :
    recordsOf post ((keptRecords opts posts records).map (synced env opts posts)) =
      recordsOf post records := by
  unfold recordsOf keptRecords
  rw [List.countP_map, List.countP_filter]
  apply List.countP_congr
  intro record present
  simp only [Function.comp_apply, Bool.and_eq_true, decide_eq_true_eq, Bool.not_eq_true']
  constructor
  · rintro ⟨named, kept⟩
    exact (synced_names_iff apart syncable member live (lengths record present) kept).mp named
  · intro named
    have kept := live_kept apart syncable adding member live present named
    exact ⟨(synced_names_iff apart syncable member live (lengths record present) kept).mpr named,
      kept⟩

theorem recordsOf_added (adding : opts.addMissing = true) {post : Post} (member : post ∈ posts)
    (live : post.deletedOrRemoved = false) :
    recordsOf post ((addedPosts opts posts records).map (freshRecord env opts)) =
      if post.postFile ∈ seenKeys records then 0 else 1 := by
  have names : recordsOf post ((addedPosts opts posts records).map (freshRecord env opts)) =
      ((addedPosts opts posts records).map Post.postFile).count post.postFile := by
    unfold recordsOf
    rw [List.countP_map, List.count_eq_countP, List.countP_map]
    apply List.countP_congr
    intro other inside
    obtain ⟨_adding, present, otherLive, _unseen⟩ := mem_addedPosts.mp inside
    have fits := syncable.fits (by rw [adding, Bool.or_true]) other present
    have key := (recordKey_freshRecord env opts other).trans (key_live fits otherLive)
    simp only [Function.comp_apply, key, decide_eq_true_eq, beq_iff_eq]
  have single : ((addedPosts opts posts records).map Post.postFile).Nodup := by
    refine List.Nodup.sublist (List.Sublist.map _ ?_) apart
    unfold addedPosts
    rw [adding, if_pos rfl]
    exact List.filter_sublist
  rw [names]
  by_cases seen : post.postFile ∈ seenKeys records
  · rw [if_pos seen]
    apply List.count_eq_zero_of_not_mem
    intro inside
    obtain ⟨other, added, named⟩ := List.mem_map.mp inside
    obtain ⟨_adding, _present, _live, unseen⟩ := mem_addedPosts.mp added
    rw [named] at unseen
    exact unseen seen
  · rw [if_neg seen]
    apply List.count_eq_one_of_mem single
    exact List.mem_map_of_mem (mem_addedPosts.mpr ⟨adding, member, live, seen⟩)

theorem recordsOf_newRecords (lengths : ∀ record ∈ records, record.length = fileHeaderSize)
    (adding : opts.addMissing = true) {post : Post} (member : post ∈ posts)
    (live : post.deletedOrRemoved = false) :
    recordsOf post (newRecords env opts posts records) = max 1 (recordsOf post records) := by
  have counted : recordsOf post (newRecords env opts posts records) =
      recordsOf post ((keptRecords opts posts records).map (synced env opts posts)) +
        recordsOf post ((addedPosts opts posts records).map (freshRecord env opts)) := by
    unfold recordsOf
    rw [← List.countP_append]
    exact (newRecords_perm env opts posts records).countP_eq _
  rw [counted, recordsOf_kept apart syncable lengths adding member live,
    recordsOf_added apart syncable adding member live]
  have positive := recordsOf_pos_iff post records
  split
  · rename_i seen
    have some := positive.mpr seen
    omega
  · rename_i unseen
    have none : recordsOf post records = 0 := by
      by_contra some
      exact unseen (positive.mp (Nat.pos_of_ne_zero some))
    omega

theorem addedPosts_newRecords (lengths : ∀ record ∈ records, record.length = fileHeaderSize) :
    addedPosts opts posts (newRecords env opts posts records) = [] := by
  apply List.eq_nil_iff_forall_not_mem.mpr
  intro post added
  obtain ⟨adding, member, live, unseen⟩ := mem_addedPosts.mp added
  apply unseen
  rw [← recordsOf_pos_iff, recordsOf_newRecords apart syncable lengths adding member live]
  omega

end

theorem added_before_newer {post : Post} (added : post ∈ addedPosts opts posts records) :
    ∃ before after, newRecords env opts posts records =
      before ++ freshRecord env opts post :: after ∧
      (((keptRecords opts posts records).takeWhile fun record =>
        !newer (missingEntry env opts post).time (keptEntry env opts posts record)).map
          (synced env opts posts)).Sublist before ∧
      (((keptRecords opts posts records).dropWhile fun record =>
        !newer (missingEntry env opts post).time (keptEntry env opts posts record)).map
          (synced env opts posts)).Sublist after := by
  have inside : missingEntry env opts post ∈ addedEntries env opts posts records :=
    List.mem_mergeSort.mpr (List.mem_map_of_mem added)
  obtain ⟨early, late, split⟩ := List.append_of_mem inside
  have sorted : (addedEntries env opts posts records).Pairwise fun left right =>
      left.time ≤ right.time := by
    refine (List.pairwise_mergeSort ?_ ?_ _).imp of_decide_eq_true
    · intro left middle right first second
      exact decide_eq_true (le_trans (of_decide_eq_true first) (of_decide_eq_true second))
    · intro left right
      rw [Bool.or_eq_true, decide_eq_true_eq, decide_eq_true_eq]
      exact le_total _ _
  rw [split, List.pairwise_append] at sorted
  refine ⟨(mergeByTime ((keptEntries env opts posts records).takeWhile fun entry =>
      !newer (missingEntry env opts post).time entry) early).map DirEntry.record,
    (mergeByTime ((keptEntries env opts posts records).dropWhile fun entry =>
      !newer (missingEntry env opts post).time entry) late).map DirEntry.record, ?_, ?_, ?_⟩
  · unfold newRecords
    rw [split, mergeByTime_split fun other member => sorted.2.2 other member _ List.mem_cons_self,
      List.map_append, List.map_cons]
    rfl
  · refine List.Sublist.trans ?_ ((mergeByTime_sublist _ _).map DirEntry.record)
    unfold keptEntries
    rw [List.takeWhile_map, List.map_map]
    exact List.Sublist.refl _
  · refine List.Sublist.trans ?_ ((mergeByTime_sublist _ _).map DirEntry.record)
    unfold keptEntries
    rw [List.dropWhile_map, List.map_map]
    exact List.Sublist.refl _

end Once

/-! ### Two runs on a store -/

structure SyncedOnce (env : SyncEnv) (opts : SyncDirOptions) (posts : List Post)
    (old new : List Bytes) : Prop where
  /-- Every record that is not pruned stays, in its order. -/
  keeps : ((keptRecords opts posts old).map (synced env opts posts)).Sublist new
  /-- Besides them there are only the records of the added posts. -/
  others : new.Perm ((keptRecords opts posts old).map (synced env opts posts) ++
    (addedPosts opts posts old).map (freshRecord env opts))
  unknown : ∀ record ∈ old, foundPost posts record = none →
    synced env opts posts record = record
  unowned : ∀ record ∈ old, ∀ index, ownedByte opts index = false →
    (synced env opts posts record)[index]? = record[index]?
  /-- A live post has its records from before, or one. -/
  one : opts.addMissing = true → ∀ post ∈ posts, post.deletedOrRemoved = false →
    recordsOf post new = max 1 (recordsOf post old)
  placed : ∀ post ∈ addedPosts opts posts old, ∃ before after,
    new = before ++ freshRecord env opts post :: after ∧
      (((keptRecords opts posts old).takeWhile fun record =>
        !newer (missingEntry env opts post).time (keptEntry env opts posts record)).map
          (synced env opts posts)).Sublist before ∧
      (((keptRecords opts posts old).dropWhile fun record =>
        !newer (missingEntry env opts post).time (keptEntry env opts posts record)).map
          (synced env opts posts)).Sublist after

section

variable {env : SyncEnv} {opts : SyncDirOptions} {posts : List Post} {records : List Bytes}
  (apart : FilesApart posts) (syncable : Syncable opts posts records)
  (lengths : ∀ record ∈ records, record.length = fileHeaderSize)

include apart syncable lengths

theorem syncedOnce_newRecords :
    SyncedOnce env opts posts records (newRecords env opts posts records) where
  keeps := keptRecords_sublist env opts posts records
  others := newRecords_perm env opts posts records
  unknown := by
    intro record _ unknown
    unfold synced syncedRecord
    rw [unknown]
  unowned := fun record _ index unowned => syncedRecord_unowned env opts _ unowned
  one := fun adding post member live =>
    recordsOf_newRecords apart syncable lengths adding member live
  placed := fun post added => added_before_newer added

theorem runStats_newRecords :
    (runStats env opts posts (newRecords env opts posts records)).updated = 0 ∧
      (runStats env opts posts (newRecords env opts posts records)).pruned = 0 ∧
      (runStats env opts posts (newRecords env opts posts records)).added = 0 ∧
      newRecords env opts posts (newRecords env opts posts records) =
        newRecords env opts posts records := by
  have settled : ∀ record ∈ newRecords env opts posts records, Settled env opts posts record :=
    settled_newRecords apart syncable lengths
  have none : addedPosts opts posts (newRecords env opts posts records) = [] :=
    addedPosts_newRecords apart syncable lengths
  refine ⟨?_, ?_, ?_, ?_⟩
  · refine List.countP_eq_zero.mpr fun record member changed => ?_
    exact of_decide_eq_true changed (settled record (List.mem_filter.mp member).1).same
  · refine List.countP_eq_zero.mpr fun record member pruned => ?_
    rw [(settled record member).kept] at pruned
    cases pruned
  · exact congrArg List.length none
  · exact newRecords_of_quiet (fun record member => (settled record member).kept)
      (fun record member => (settled record member).same) none

end

namespace Engine

theorem flushDirtyDeltas_flushDirtyDeltas (engine : Engine) :
    engine.flushDirtyDeltas.flushDirtyDeltas = engine.flushDirtyDeltas := by
  have rows : (engine.flushDirtyDeltas.metaDB.posts.mapValues fun id row =>
      applyDelta (((OrderedMap.empty : OrderedMap UInt64 PostDelta).get? id).getD {}) row) =
      engine.flushDirtyDeltas.metaDB.posts := by
    apply OrderedMap.ext_get?
    intro id
    rw [OrderedMap.get?_mapValues]
    cases engine.flushDirtyDeltas.metaDB.posts.get? id with
    | none => rfl
    | some row => simp [applyDelta]
  conv_lhs => rw [flushDirtyDeltas]
  conv_rhs => rw [flushDirtyDeltas]
  simp only [Engine.mk.injEq, true_and, MetaDB.mk.injEq]
  exact ⟨rfl, rfl, rfl, rfl, ⟨rows, rfl, rfl, rfl⟩, rfl, rfl, rfl⟩

theorem syncDir_board (env : SyncEnv) {opts : SyncDirOptions} (wet : opts.dryRun = false)
    (board : Bytes) (engine : Engine) {data : Bytes}
    (whole : data.length % fileHeaderSize = 0) :
    engine.syncDir env opts board data = (engine.flushDirtyDeltas,
      some (runStats env opts (engine.listPostMeta board).2 (chunksOf fileHeaderSize data),
        (newRecords env opts (engine.listPostMeta board).2
          (chunksOf fileHeaderSize data)).flatten)) := by
  unfold Engine.syncDir
  dsimp only
  rw [syncDir_eq data whole wet]
  rfl

def boardPosts (engine : Engine) (board : Bytes) : List Post := (engine.listPostMeta board).2

theorem boardPosts_apart {engine : Engine} (unique : FilesUnique engine.metaDB) (board : Bytes) :
    FilesApart (engine.boardPosts board) := by
  unfold FilesApart boardPosts listPostMeta
  dsimp only
  rw [List.map_map, List.Nodup, List.pairwise_map]
  have ordered := engine.flushDirtyDeltas.metaDB.posts.ordered
  refine (List.Pairwise.imp_of_mem ?_ (ordered.filter _))
  intro left right leftMember rightMember less sameFile
  obtain ⟨leftInside, leftBoard⟩ := List.mem_filter.mp leftMember
  obtain ⟨rightInside, rightBoard⟩ := List.mem_filter.mp rightMember
  have before : ∀ entry ∈ engine.flushDirtyDeltas.metaDB.posts.entries, ∃ row,
      engine.metaDB.posts.get? entry.1 = some row ∧ row.community = entry.2.community ∧
        row.postFile = entry.2.postFile := by
    intro entry member
    have stored := (OrderedMap.get?_eq_some_iff _).mpr member
    unfold flushDirtyDeltas at stored
    dsimp only at stored
    rw [OrderedMap.get?_mapValues] at stored
    obtain ⟨row, present, same⟩ := Option.map_eq_some_iff.mp stored
    exact ⟨row, present, by rw [← same]; rfl, by rw [← same]; rfl⟩
  obtain ⟨leftRow, leftStored, leftCommunity, leftFile⟩ := before left leftInside
  obtain ⟨rightRow, rightStored, rightCommunity, rightFile⟩ := before right rightInside
  have same := unique _ _ _ _ leftStored rightStored ⟨by
    rw [leftCommunity, rightCommunity, of_decide_eq_true leftBoard, of_decide_eq_true rightBoard],
    by rw [leftFile, rightFile]; exact sameFile⟩
  rw [same] at less
  exact lt_irrefl _ less

/-- One run keeps what it does not own and adds what is missing; a second run reports
nothing and leaves the file. -/
theorem syncDir_twice (env : SyncEnv) (opts : SyncDirOptions) (board : Bytes) (engine : Engine)
    (unique : FilesUnique engine.metaDB) (data : Bytes)
    (whole : data.length % fileHeaderSize = 0) (wet : opts.dryRun = false)
    (syncable : Syncable opts (engine.boardPosts board) (chunksOf fileHeaderSize data)) :
    ∃ between stats dir, engine.syncDir env opts board data = (between, some (stats, dir)) ∧
      SyncedOnce env opts (engine.boardPosts board) (chunksOf fileHeaderSize data)
        (chunksOf fileHeaderSize dir) ∧
      ∃ after again, between.syncDir env opts board dir = (after, some (again, dir)) ∧
        again.updated = 0 ∧ again.pruned = 0 ∧ again.added = 0 := by
  have apart := boardPosts_apart unique board
  have positive : 0 < fileHeaderSize := by decide
  have lengths : ∀ record ∈ chunksOf fileHeaderSize data, record.length = fileHeaderSize :=
    fun record member => length_of_mem_chunksOf member
  have newLengths : ∀ record ∈ newRecords env opts (engine.boardPosts board)
      (chunksOf fileHeaderSize data), record.length = fileHeaderSize :=
    length_of_mem_newRecords lengths
  have chunks := chunksOf_flatten positive newLengths
  have newWhole : (newRecords env opts (engine.boardPosts board)
      (chunksOf fileHeaderSize data)).flatten.length % fileHeaderSize = 0 := by
    rw [length_flatten_of_lengths newLengths, Nat.mul_mod_left]
  have samePosts : (engine.flushDirtyDeltas.listPostMeta board).2 = engine.boardPosts board := by
    unfold boardPosts listPostMeta
    rw [flushDirtyDeltas_flushDirtyDeltas]
  have quiet : _ ∧ _ ∧ _ ∧ newRecords env opts (engine.boardPosts board) _ = _ :=
    runStats_newRecords apart syncable lengths
  obtain ⟨updated, pruned, added, same⟩ := quiet
  refine ⟨_, _, _, syncDir_board env wet board engine whole, ?_, ?_⟩
  · rw [← boardPosts, chunks]
    exact syncedOnce_newRecords apart syncable lengths
  · have second := syncDir_board env wet board engine.flushDirtyDeltas newWhole
    rw [samePosts, chunks, same] at second
    exact ⟨_, _, second, updated, pruned, added⟩

section Sample

def plainEnv : SyncEnv := ⟨id, fun _ => (1, 1), fun _ => true⟩

def namedRecord (name : Bytes) : Bytes := name ++ List.replicate (128 - name.length) 0

def votedBoard : Engine := votedOnce (utf8 "bob")

def twoPosts : Engine :=
  let deletedRow := { votedRow [] with
    postFile := utf8 "G.1.A"
    deletion := { deleted := true } }
  { votedBoard with metaDB := { votedBoard.metaDB with
    posts := votedBoard.metaDB.posts.set 2 deletedRow } }

def SecondRunQuiet (env : SyncEnv) (opts : SyncDirOptions) (board : Bytes) (engine : Engine)
    (data : Bytes) : Prop :=
  ∃ between stats dir after again, engine.syncDir env opts board data =
      (between, some (stats, dir)) ∧
    between.syncDir env opts board dir = (after, some (again, dir)) ∧
    again.updated = 0 ∧ again.pruned = 0 ∧ again.added = 0

def secondReport (env : SyncEnv) (opts : SyncDirOptions) (board : Bytes) (engine : Engine)
    (data : Bytes) : Option (Nat × Nat) :=
  let (between, first) := engine.syncDir env opts board data
  first.bind fun result =>
    (between.syncDir env opts board result.2).2.map fun again => (again.1.updated, again.1.added)

theorem secondReport_of_quiet {env : SyncEnv} {opts : SyncDirOptions} {board : Bytes}
    {engine : Engine} {data : Bytes} (quiet : SecondRunQuiet env opts board engine data) :
    secondReport env opts board engine data = some (0, 0) := by
  obtain ⟨between, stats, dir, after, again, first, second, updated, _pruned, added⟩ := quiet
  unfold secondReport
  simp only [first, Option.bind_some, second, Option.map_some, updated, added]

/-- A dry run reports the same again; a restored post that is pruned is added by the next
run; a record that stands for another post after `Full` is written again; and records that
were there twice stay. -/
theorem syncDir_again_not_quiet :
    ¬ SecondRunQuiet plainEnv { dryRun := true } (utf8 "Test") votedBoard
        (namedRecord (utf8 "M.1.A")) ∧
      ¬ SecondRunQuiet plainEnv { prune := true, addMissing := true } (utf8 "Test") votedBoard
        (namedRecord (utf8 ".d1.A")) ∧
      ¬ SecondRunQuiet plainEnv { full := true } (utf8 "Test") twoPosts
        (namedRecord (utf8 "G.1.A")) ∧
      ((votedBoard.syncDir plainEnv { addMissing := true } (utf8 "Test")
        (namedRecord (utf8 "M.1.A") ++ namedRecord (utf8 "M.1.A"))).2.map fun result =>
          recordsOf (postOfRow 1 (votedRow (utf8 "bob"))) (chunksOf fileHeaderSize result.2)) =
        some 2 := by
  refine ⟨?_, ?_, ?_, by decide +kernel⟩
  · intro quiet
    exact absurd (secondReport_of_quiet quiet) (by decide +kernel)
  · intro quiet
    exact absurd (secondReport_of_quiet quiet) (by decide +kernel)
  · intro quiet
    exact absurd (secondReport_of_quiet quiet) (by decide +kernel)

theorem votedBoard_posts :
    votedBoard.boardPosts (utf8 "Test") = [postOfRow 1 (votedRow (utf8 "bob"))] := by
  decide

/-- A board with a record of an unknown post gets the record of its own. -/
theorem votedBoard_synced_twice :
    ∃ between stats dir, votedBoard.syncDir plainEnv
        { full := true, prune := true, addMissing := true } (utf8 "Test")
          (namedRecord (utf8 "M.2.A")) = (between, some (stats, dir)) ∧
      SyncedOnce plainEnv { full := true, prune := true, addMissing := true }
        (votedBoard.boardPosts (utf8 "Test"))
        (chunksOf fileHeaderSize (namedRecord (utf8 "M.2.A"))) (chunksOf fileHeaderSize dir) ∧
      ∃ after again, between.syncDir plainEnv
          { full := true, prune := true, addMissing := true } (utf8 "Test") dir =
          (after, some (again, dir)) ∧
        again.updated = 0 ∧ again.pruned = 0 ∧ again.added = 0 := by
  have fits : ∀ post ∈ votedBoard.boardPosts (utf8 "Test"), FitsRecord post.postFile := by
    rw [votedBoard_posts]
    intro post member
    rw [List.mem_singleton.mp member]
    exact ⟨by decide, by decide, by decide, by decide⟩
  refine syncDir_twice plainEnv { full := true, prune := true, addMissing := true }
    (utf8 "Test") votedBoard (votedOnce_unique _) (namedRecord (utf8 "M.2.A")) (by decide +kernel)
    rfl ⟨fun _ => fits, fun _ kept => absurd kept (by decide), ?_⟩
  intro _ _ record member safe
  have plain : ∀ record ∈ chunksOf fileHeaderSize (namedRecord (utf8 "M.2.A")),
      (recordKey record).2 = false := by
    decide +kernel
  rw [plain record member] at safe
  cases safe

end Sample

end Engine

end Pttbbs.PostSvc
