/-
The cached list of banned addresses.

The list is stored in a second file and read from there as long as that file is not older than the
configuration.  Its sizes are checked against the size of the file, in words of 64 bits.
-/

import Pttbbs.Common.BanListExact
import Pttbbs.Mbbsd.BrcBuffer

namespace Pttbbs.Common.BanIp

open Pttbbs.Lib Pttbbs.Mbbsd.ReadMarks

/-! ### The cache file -/

def word (value : Nat) : Nat := value % 2 ^ 64

def recordSize : Nat := 12

def BanRecord.bytes (record : BanRecord) : Bytes :=
  littleEndian 4 record.startIp.toNat ++ littleEndian 4 record.endIp.toNat ++
    littleEndian 4 record.msgOffset.toNat

def readRecord (bytes : Bytes) : BanRecord where
  startIp := UInt32.ofNat (fromLittleEndian (bytes.take 4))
  endIp := UInt32.ofNat (fromLittleEndian ((bytes.drop 4).take 4))
  msgOffset := UInt32.ofNat (fromLittleEndian ((bytes.drop 8).take 4))

def readRecords : Nat → Bytes → List BanRecord
  | 0, _ => []
  | count + 1, bytes => readRecord bytes :: readRecords count (bytes.drop recordSize)

def cacheBytes (list : IPv4List) : Bytes :=
  littleEndian 8 list.ar.length ++ littleEndian 8 list.msg.length ++
    list.ar.flatMap BanRecord.bytes ++ list.msg

structure LoadedList where
  sz : Nat
  ar : List BanRecord
  msg : Bytes

def IPv4List.loaded (list : IPv4List) : LoadedList := ⟨list.ar.length, list.ar, list.msg⟩

/-- Both arrays of a list are in memory, so their sizes are below `PTRDIFF_MAX`. -/
def IPv4List.InMemory (list : IPv4List) : Prop :=
  list.ar.length * recordSize < 2 ^ 63 ∧ list.msg.length < 2 ^ 63

inductive CacheRead where
  | refused
  | aborted
  | loaded (list : LoadedList)

def rszOf (content : Bytes) : Nat := fromLittleEndian (content.take 8)

def rszmsgOf (content : Bytes) : Nat := fromLittleEndian ((content.drop 8).take 8)

/-- A cache file that is new enough; the assertions fail where no memory is left. -/
def readCache (content : Bytes) : CacheRead :=
  if content.length < 16 then .refused
  else if word content.length ≠ word (16 + rszOf content * recordSize + rszmsgOf content) then
    .refused
  else if 2 ^ 63 ≤ word (rszOf content * recordSize) ∨ 2 ^ 63 ≤ rszmsgOf content then .aborted
  else
    .loaded
      { sz := rszOf content
        ar := readRecords (word (rszOf content * recordSize) / recordSize) (content.drop 16)
        msg := (content.drop (16 + rszOf content * recordSize)).take (rszmsgOf content) }

/-! ### Looking up in a loaded list -/

/-- `search_banrecord`; nothing where it reads outside of the array. -/
def LoadedList.search (list : LoadedList) (ip : UInt32) : Option (Option BanRecord) :=
  if list.sz = 0 then some none
  else
    match searchLoop list.ar ip 0 (list.sz - 1) none with
    | .outside => none
    | .found record => some (some record)
    | .best none => some none
    | .best (some place) => scanBack list.ar ip (place + 1)

def LoadedList.inBanipListAddr (list : LoadedList) (ip : UInt32) : Option (Option Bytes) :=
  if list.sz = 0 then some none
  else
    (list.search ip).map fun found =>
      found.map fun p =>
        if p.msgOffset.toNat < list.msg.length then
          (list.msg.drop p.msgOffset.toNat).takeWhile (· ≠ 0)
        else strBanned

theorem inBanipListAddr_loaded (list : IPv4List) (ip : UInt32) :
    list.loaded.inBanipListAddr ip = inBanipListAddr list ip := rfl

section Inside

variable {ar : List BanRecord} {ip : UInt32}

def Probe.Inside (ar : List BanRecord) : Probe → Prop
  | .outside => False
  | .found _ => True
  | .best candidate => ∀ place ∈ candidate, place < ar.length

theorem searchLoop_inside {low high : Nat} {best : Option Nat} (within : high < ar.length)
    (candidate : ∀ place ∈ best, place < ar.length) :
    (searchLoop ar ip low high best).Inside ar := by
  induction low, high, best using searchLoop.induct ar ip with
  | case1 low high best order mid missing =>
      have below : mid < ar.length := by omega
      rw [List.getElem?_eq_getElem below] at missing
      cases missing
  | case2 low high best order mid record read below above =>
      rw [searchLoop, if_pos order]
      simp only [mid] at read
      simp only [read, if_pos below, if_pos above, Probe.Inside]
  | case3 low high best order mid record read below above ih =>
      rw [searchLoop, if_pos order]
      simp only [mid] at read ih
      simp only [read, if_pos below, if_neg above]
      refine ih within fun place same => ?_
      rw [← Option.some.inj same]
      omega
  | case4 low high best order mid record read below first =>
      rw [searchLoop, if_pos order]
      simp only [mid] at read first
      simp only [read, if_neg below, if_pos first]
      exact candidate
  | case5 low high best order mid record read below first ih =>
      rw [searchLoop, if_pos order]
      simp only [mid] at read first ih
      simp only [read, if_neg below, if_neg first]
      exact ih (by omega) candidate
  | case6 low high best order =>
      rw [searchLoop, if_neg order]
      exact candidate

theorem scanBack_isSome {count : Nat} (inside : count ≤ ar.length) :
    (scanBack ar ip count).isSome = true := by
  induction count with
  | zero => rfl
  | succ place ih =>
      rw [scanBack, List.getElem?_eq_getElem inside]
      dsimp only
      split
      · rfl
      · exact ih (Nat.le_of_lt inside)

end Inside

/-- A look-up stays inside of an array that is as long as the count says, in whatever order its
records are. -/
theorem LoadedList.search_isSome {list : LoadedList} (whole : list.sz = list.ar.length)
    (ip : UInt32) : (list.search ip).isSome = true := by
  rw [search]
  split
  · rfl
  · have inside := @searchLoop_inside list.ar ip 0 (list.sz - 1) none (by omega) nofun
    generalize searchLoop list.ar ip 0 (list.sz - 1) none = probe at inside
    cases probe with
    | outside => exact inside.elim
    | found record => rfl
    | best candidate =>
        cases candidate with
        | none => rfl
        | some place => exact scanBack_isSome (inside place rfl)

theorem LoadedList.search_outside {list : LoadedList} (long : 2 * list.ar.length < list.sz)
    (ip : UInt32) : list.search ip = none := by
  have missing : list.ar[0 + (list.sz - 1 - 0) / 2]? = none :=
    List.getElem?_eq_none_iff.mpr (by omega)
  rw [search, if_neg (by omega), searchLoop, if_pos (Nat.zero_le _)]
  dsimp only
  rw [missing]

/-! ### Writing and reading -/

theorem BanRecord.bytes_length (record : BanRecord) : record.bytes.length = recordSize := by
  rw [bytes, List.length_append, List.length_append, littleEndian_length, littleEndian_length,
    littleEndian_length, recordSize]

theorem readRecord_bytes (record : BanRecord) (rest : Bytes) :
    readRecord (record.bytes ++ rest) = record := by
  obtain ⟨startIp, endIp, msgOffset⟩ := record
  unfold readRecord BanRecord.bytes
  have eight : (littleEndian 4 startIp.toNat ++ littleEndian 4 endIp.toNat).length = 8 := by
    rw [List.length_append, littleEndian_length, littleEndian_length]
  rw [List.append_assoc, List.append_assoc, List.take_left' (littleEndian_length 4 _),
    List.drop_left' (littleEndian_length 4 _), List.take_left' (littleEndian_length 4 _),
    ← List.append_assoc (littleEndian 4 startIp.toNat), List.drop_left' eight,
    List.take_left' (littleEndian_length 4 _), ofNat_littleEndian, ofNat_littleEndian,
    ofNat_littleEndian]

theorem readRecords_bytes (records : List BanRecord) (rest : Bytes) :
    readRecords records.length (records.flatMap BanRecord.bytes ++ rest) = records := by
  induction records with
  | nil => rfl
  | cons record records ih =>
      rw [List.length_cons, List.flatMap_cons, List.append_assoc, readRecords, readRecord_bytes,
        List.drop_left' record.bytes_length, ih]

theorem flatMap_bytes_length (records : List BanRecord) :
    (records.flatMap BanRecord.bytes).length = records.length * recordSize := by
  induction records with
  | nil => rfl
  | cons record records ih =>
      rw [List.flatMap_cons, List.length_append, ih, record.bytes_length, List.length_cons,
        Nat.succ_mul, Nat.add_comm]

theorem readCache_cacheBytes {list : IPv4List} (fits : list.InMemory) :
    readCache (cacheBytes list) = .loaded list.loaded := by
  obtain ⟨records, message⟩ := fits
  have small : list.ar.length < 256 ^ 8 := by
    unfold recordSize at records
    omega
  have rsz : rszOf (cacheBytes list) = list.ar.length := by
    rw [rszOf, cacheBytes, List.append_assoc, List.append_assoc,
      List.take_left' (littleEndian_length 8 _), fromLittleEndian_littleEndian 8 _ small]
  have rszmsg : rszmsgOf (cacheBytes list) = list.msg.length := by
    rw [rszmsgOf, cacheBytes, List.append_assoc, List.append_assoc,
      List.drop_left' (littleEndian_length 8 _), List.take_left' (littleEndian_length 8 _),
      fromLittleEndian_littleEndian 8 _ (message.trans (by decide))]
  have header : (littleEndian 8 list.ar.length ++ littleEndian 8 list.msg.length).length = 16 := by
    rw [List.length_append, littleEndian_length, littleEndian_length]
  have front : (littleEndian 8 list.ar.length ++ littleEndian 8 list.msg.length ++
      list.ar.flatMap BanRecord.bytes).length = 16 + list.ar.length * recordSize := by
    rw [List.length_append, header, flatMap_bytes_length]
  have length : (cacheBytes list).length =
      16 + list.ar.length * recordSize + list.msg.length := by
    rw [cacheBytes, List.length_append, front]
  have same : word (list.ar.length * recordSize) = list.ar.length * recordSize :=
    Nat.mod_eq_of_lt (by omega)
  have behind : (cacheBytes list).drop 16 = list.ar.flatMap BanRecord.bytes ++ list.msg := by
    rw [cacheBytes, List.append_assoc _ _ list.msg, List.drop_left' header]
  have last : (cacheBytes list).drop (16 + list.ar.length * recordSize) = list.msg := by
    rw [cacheBytes, List.drop_left' front]
  rw [readCache, rsz, rszmsg, if_neg (by omega), if_neg (not_not.mpr (congrArg word length)), same,
    if_neg (by omega), behind, last, Nat.mul_div_cancel _ (by decide : 0 < recordSize),
    readRecords_bytes, List.take_length, IPv4List.loaded]

theorem readRecords_length (count : Nat) (bytes : Bytes) :
    (readRecords count bytes).length = count := by
  induction count generalizing bytes with
  | zero => rfl
  | succ count ih => rw [readRecords, List.length_cons, ih]

/-- Of a content that is accepted a look-up stays inside of the array if the size of the array does
not wrap around; otherwise every one reads outside. -/
theorem search_of_readCache {content : Bytes} {list : LoadedList}
    (read : readCache content = .loaded list) :
    (rszOf content * recordSize < 2 ^ 64 → ∀ ip, (list.search ip).isSome = true) ∧
      (¬ rszOf content * recordSize < 2 ^ 64 → ∀ ip, list.search ip = none) := by
  unfold readCache at read
  split at read
  · cases read
  · split at read
    · cases read
    · split at read
      · cases read
      · cases read
        refine ⟨fun fits ip => ?_, fun wraps ip => ?_⟩
        · refine LoadedList.search_isSome ?_ ip
          dsimp only
          rw [readRecords_length, word, Nat.mod_eq_of_lt fits,
            Nat.mul_div_cancel _ (by decide : 0 < recordSize)]
        · refine LoadedList.search_outside ?_ ip
          dsimp only
          rw [readRecords_length, word]
          unfold recordSize at wraps ⊢
          -- What is left of the size is less than what has wrapped around.
          have parts := Nat.div_add_mod (rszOf content * 12) (2 ^ 64)
          have rest := Nat.mod_lt (rszOf content * 12) (by decide : 0 < 2 ^ 64)
          have wrapped := Nat.div_pos (Nat.le_of_not_lt wraps) (by decide)
          generalize rszOf content * 12 % 2 ^ 64 = low at parts rest ⊢
          generalize rszOf content * 12 / 2 ^ 64 = high at parts wrapped
          omega

/-! ### Edits and calls -/

structure TimedFile where
  content : Bytes
  time : Nat

structure Files where
  base : Option TimedFile
  cache : Option TimedFile
  now : Nat

def dasht (file : Option TimedFile) : Nat := (file.map TimedFile.time).getD 0

inductive CachedBanipList (files : Files) (second : Nat) : Files → Option LoadedList → Prop where
  | missing (invalid : dasht files.base = 0) :
      CachedBanipList files second { files with now := second } none
  | cached {base cache : TimedFile} {list : LoadedList} (configured : files.base = some base)
      (valid : base.time ≠ 0) (stored : files.cache = some cache) (newer : base.time ≤ cache.time)
      (read : readCache cache.content = .loaded list) :
      CachedBanipList files second { files with now := second } (some list)
  | loaded {base : TimedFile} {list : IPv4List} {cache : Option TimedFile}
      (configured : files.base = some base) (valid : base.time ≠ 0)
      (refused : ∀ cache ∈ files.cache, base.time ≤ cache.time →
        readCache cache.content = .refused)
      (load : LoadBanipList base.content list) (fits : list.InMemory)
      -- Where the file cannot be written the old one stays.
      (written : cache = files.cache ∨ cache = some ⟨cacheBytes list, second⟩) :
      CachedBanipList files second { files with now := second, cache := cache } (some list.loaded)

def Files.edit (files : Files) (second : Nat) (content : Option Bytes) : Files :=
  { files with now := second, base := content.map fun content => ⟨content, second⟩ }

/-- Edits and calls at times that do not decrease; `Careful` is asked of every edit. -/
inductive EditsAndCalls (Careful : Files → Nat → Prop) (start : Files) : Files → Prop where
  | start : EditsAndCalls Careful start start
  | edit {files : Files} {second : Nat} (run : EditsAndCalls Careful start files)
      (later : files.now ≤ second) (careful : Careful files second) (content : Option Bytes) :
      EditsAndCalls Careful start (files.edit second content)
  | call {files after : Files} {second : Nat} {result : Option LoadedList}
      (run : EditsAndCalls Careful start files) (later : files.now ≤ second)
      (called : CachedBanipList files second after result) :
      EditsAndCalls Careful start after

/-- The configuration is not edited in the second in which the cache was written. -/
def EditedApart (files : Files) (second : Nat) : Prop :=
  ∀ cache ∈ files.cache, cache.time < second

/-- The cache is older than the configuration, or it holds a list of the configuration. -/
def Current (files : Files) : Prop :=
  ∀ base ∈ files.base, ∀ cache ∈ files.cache, base.time ≤ cache.time →
    ∃ list : IPv4List, LoadBanipList base.content list ∧ list.InMemory ∧
      cache.content = cacheBytes list

def AnswersFresh (files : Files) (result : Option LoadedList) : Prop :=
  (dasht files.base = 0 → result = none) ∧
    ∀ base ∈ files.base, base.time ≠ 0 → ∃ answered ∈ result, ∃ list,
      LoadBanipList base.content list ∧
        ∀ ip, answered.inBanipListAddr ip = inBanipListAddr list ip ∧
          (answered.search ip).isSome = true

theorem Current.call {files after : Files} {second : Nat} {result : Option LoadedList}
    (current : Current files) (called : CachedBanipList files second after result) :
    Current after ∧ AnswersFresh files result := by
  cases called with
  | missing invalid =>
      refine ⟨current, fun _ => rfl, fun base configured valid => absurd ?_ valid⟩
      rw [Option.mem_def.mp configured] at invalid
      exact invalid
  | @cached base cache list configured valid stored newer read =>
      obtain ⟨fresh, load, fits, same⟩ := current base configured cache stored newer
      rw [same, readCache_cacheBytes fits] at read
      cases read
      refine ⟨current, fun invalid => ?_, fun other here _ => ?_⟩
      · rw [configured] at invalid
        exact absurd invalid valid
      · rw [configured] at here
        cases here
        exact ⟨_, rfl, fresh, load, fun ip =>
          ⟨inBanipListAddr_loaded fresh ip, LoadedList.search_isSome rfl ip⟩⟩
  | @loaded base list cache configured valid refused load fits written =>
      refine ⟨fun other here cached stored newer => ?_, fun invalid => ?_, fun other here _ => ?_⟩
      · rw [configured] at here
        cases here
        rcases written with rfl | rfl
        · exact current base configured cached stored newer
        · cases stored
          exact ⟨list, load, fits, rfl⟩
      · rw [configured] at invalid
        exact absurd invalid valid
      · rw [configured] at here
        cases here
        exact ⟨_, rfl, list, load, fun ip =>
          ⟨inBanipListAddr_loaded list ip, LoadedList.search_isSome rfl ip⟩⟩

theorem Current.run {start files : Files} (current : Current start)
    (run : EditsAndCalls EditedApart start files) : Current files := by
  induction run with
  | start => exact current
  | edit run later careful content ih =>
      intro base here cache stored newer
      obtain ⟨text, _, rfl⟩ := Option.map_eq_some_iff.mp here
      exact absurd newer (Nat.not_le_of_lt (careful cache stored))
  | call run later called ih => exact (ih.call called).1

def oneBan : Bytes := utf8 "1.2.3.4\nno\n"

def oneBanList : IPv4List := { ar := [⟨16909060, 16909060, 0⟩], msg := utf8 "no" ++ [10, 13, 0] }

def noFiles : Files := { base := none, cache := none, now := 0 }

theorem oneBan_loads : LoadBanipList oneBan oneBanList :=
  ⟨oneBanList, by decide,
    ⟨oneBanList.ar, fun _ => ⟨List.Perm.refl _, List.pairwise_singleton _ _⟩, rfl⟩⟩

theorem oneBan_called (second : Nat) :
    CachedBanipList (noFiles.edit 1 (some oneBan)) second
      ⟨some ⟨oneBan, 1⟩, some ⟨cacheBytes oneBanList, second⟩, second⟩ (some oneBanList.loaded) :=
  .loaded rfl (by decide) nofun oneBan_loads ⟨by decide, by decide⟩ (.inr rfl)

theorem oneBan_bans : ∃ text, inBanipListAddr oneBanList 16909060 = some (some text) := by
  have lines : fileLines [] oneBan = [utf8 "1.2.3.4\n", utf8 "no\n"] := by decide
  have short : ShortLines oneBan := by
    rw [ShortLines, lines]
    decide
  obtain ⟨_, bans⟩ := loadBanipList_bans short (by decide)
  obtain ⟨answer, asked, banned, _⟩ := (bans _ oneBan_loads).answer 16909060
  rw [lines] at banned
  have isSome := banned.mpr ⟨16909060, 16909060, _, linesGive_cons.mpr
    (.inl ⟨_, lineKind_address, List.mem_cons_self, rfl⟩), by decide, by decide⟩
  obtain ⟨text, rfl⟩ := Option.isSome_iff_exists.mp isSome
  exact ⟨text, asked⟩

theorem empty_bans {list : IPv4List} (load : LoadBanipList [] list) (ip : UInt32) :
    inBanipListAddr list ip = some none := by
  obtain ⟨_, bans⟩ := @loadBanipList_bans [] nofun (by decide)
  obtain ⟨answer, asked, banned, _⟩ := (bans list load).answer ip
  cases answer with
  | none => exact asked
  | some text =>
      obtain ⟨_, _, _, ⟨before, _, _, _, impossible, _⟩, _⟩ := banned.mp rfl
      exact absurd impossible.symm (by simp [fileLines])

def wrappingContent : Bytes := littleEndian 8 (2 ^ 62) ++ littleEndian 8 0

end Pttbbs.Common.BanIp
