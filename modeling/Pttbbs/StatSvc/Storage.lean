/-
The daily counters of stat.svc, in memory and in their file.

`Save` clears the dirty flag before it makes the directory, encodes the entries, writes the
temporary file and renames it.  The file is the list of entries that `encoding/json` reads back
from it.  Entries of other days are not read, and the counters of the day they do not belong to
are zero.
-/

import Pttbbs.Lib.OrderedMap
import Pttbbs.Lib.Bytes

namespace Pttbbs.StatSvc

open Pttbbs.Lib

/-- `strings.ToLower` and `strings.TrimSpace`. -/
structure Strings where
  toLower : Bytes → Bytes
  trimSpace : Bytes → Bytes
  toLower_toLower : ∀ text, toLower (toLower text) = toLower text

structure DailyStats where
  userID : Bytes
  date : UInt32
  postCount : Int32
  mailCount : Int32
  songCount : Int32
  lastSongTime : Int64
  updatedAt : Int64
deriving DecidableEq

structure Storage where
  byUser : OrderedMap Bytes DailyStats
  filePath : Bytes
  dirty : Bool
  lastSaved : Option Int64
deriving DecidableEq

inductive File where
  | missing
  /-- Not the JSON of a list of entries. -/
  | malformed
  | entries (listed : List DailyStats)
deriving DecidableEq

/-- The order in which the entries of a map are iterated. -/
structure Iteration where
  order : List DailyStats → List DailyStats
  perm : ∀ entries, (order entries).Perm entries

inductive Fault where
  | mkdirAll
  | marshalIndent
  | writeFile
  | rename
deriving DecidableEq

def newStorage (filePath : Bytes) : Storage where
  byUser := OrderedMap.empty
  filePath := filePath
  dirty := false
  lastSaved := none

section Calls

variable (strings : Strings)

def normalize (userid : Bytes) : Bytes := strings.toLower (strings.trimSpace userid)

def getEntryLocked (store : Storage) (userid : Bytes) : Option DailyStats :=
  if userid = [] then none else store.byUser.get? userid

def getOrCreateLocked (store : Storage) (userid : Bytes) (today : UInt32) (now : Int64) :
    DailyStats :=
  match getEntryLocked store userid with
  | some entry =>
      if entry.date = today then entry
      else
        { entry with
          date := today
          postCount := 0
          mailCount := 0
          songCount := 0
          lastSongTime := 0
          updatedAt := now }
  | none =>
      { userID := userid
        date := today
        postCount := 0
        mailCount := 0
        songCount := 0
        lastSongTime := 0
        updatedAt := now }

def putEntry (store : Storage) (userid : Bytes) (entry : DailyStats) : Storage :=
  { store with
    byUser := if userid = [] then store.byUser else store.byUser.set userid entry
    dirty := true }

/-- What the calls that count have in common: the user's entry of the day is changed. -/
def changeEntry (store : Storage) (userid : Bytes) (today : UInt32) (now : Int64)
    (change : DailyStats → DailyStats) : Storage :=
  let userid := normalize strings userid
  if userid = [] then store
  else putEntry store userid (change (getOrCreateLocked store userid today now))

def incPost (store : Storage) (userid : Bytes) (today : UInt32) (now : Int64) : Storage :=
  changeEntry strings store userid today now fun entry =>
    { entry with postCount := entry.postCount + 1, updatedAt := now }

def addMail (store : Storage) (userid : Bytes) (count : Int64) (today : UInt32) (now : Int64) :
    Storage :=
  let count := if count ≤ 0 then 1 else count
  changeEntry strings store userid today now fun entry =>
    { entry with mailCount := entry.mailCount + count.toInt32, updatedAt := now }

def incSong (store : Storage) (userid : Bytes) (today : UInt32) (now : Int64) : Storage :=
  changeEntry strings store userid today now fun entry =>
    { entry with songCount := entry.songCount + 1, lastSongTime := now, updatedAt := now }

def set (store : Storage) (userid : Bytes) (postCount mailCount songCount : Option Int32)
    (today : UInt32) (now : Int64) : Storage :=
  changeEntry strings store userid today now fun entry =>
    { entry with
      postCount := postCount.getD entry.postCount
      mailCount := mailCount.getD entry.mailCount
      songCount := songCount.getD entry.songCount
      updatedAt := now }

def prune (store : Storage) (today : UInt32) : Storage :=
  let kept := store.byUser.keep fun _ entry => ¬ entry.date < today
  let pruned := store.byUser.entries.length - kept.entries.length
  { store with byUser := kept, dirty := if pruned > 0 then true else store.dirty }

def isDirty (store : Storage) : Bool := store.dirty

def currentEntries (store : Storage) (today : UInt32) : List DailyStats :=
  (store.byUser.entries.map Prod.snd).filter fun entry => entry.date = today

def save (store : Storage) (file : File) (today : UInt32) (now : Int64) (iteration : Iteration)
    (fault : Option Fault) : Storage × File × Option Nat :=
  if store.filePath = [] then (store, file, some 0)
  else
    let entries := iteration.order (currentEntries store today)
    let store := { store with dirty := false, lastSaved := some now }
    match fault with
    | some .mkdirAll => (store, file, none)
    | some .marshalIndent => (store, file, none)
    | some .writeFile => (store, file, none)
    | some .rename => (store, file, none)
    | none => (store, .entries entries, some entries.length)

def loadEntry (today : UInt32) (byUser : OrderedMap Bytes DailyStats) (entry : DailyStats) :
    OrderedMap Bytes DailyStats :=
  if entry.date = today ∧ entry.userID ≠ [] then byUser.set (strings.toLower entry.userID) entry
  else byUser

def load (store : Storage) (file : File) (today : UInt32) (now : Int64) : Option Storage :=
  if store.filePath = [] then some store
  else
    match file with
    | .missing => some store
    | .malformed => none
    | .entries listed =>
        some { store with
          byUser := listed.foldl (loadEntry strings today) store.byUser
          lastSaved := some now
          dirty := false }

end Calls

/-! ### Counters of a day -/

structure Counters where
  posts : Int32
  mails : Int32
  songs : Int32
  lastSong : Int64
deriving DecidableEq

def Counters.zero : Counters := ⟨0, 0, 0, 0⟩

def DailyStats.counters (entry : DailyStats) : Counters :=
  ⟨entry.postCount, entry.mailCount, entry.songCount, entry.lastSongTime⟩

def countersIn (byUser : OrderedMap Bytes DailyStats) (today : UInt32) (userid : Bytes) :
    Counters :=
  match byUser.get? userid with
  | some entry => if entry.date = today then entry.counters else .zero
  | none => .zero

def fileEntries (strings : Strings) (file : File) (today : UInt32) : OrderedMap Bytes DailyStats :=
  match file with
  | .missing => OrderedMap.empty
  | .malformed => OrderedMap.empty
  | .entries listed => listed.foldl (loadEntry strings today) OrderedMap.empty

theorem countersIn_congr {left right : OrderedMap Bytes DailyStats} {today : UInt32}
    {userid : Bytes}
    (same : (left.get? userid).filter (fun entry => entry.date = today) =
      (right.get? userid).filter fun entry => entry.date = today) :
    countersIn left today userid = countersIn right today userid := by
  have unfolded (map : OrderedMap Bytes DailyStats) :
      countersIn map today userid =
        match (map.get? userid).filter (fun entry => entry.date = today) with
        | some entry => entry.counters
        | none => .zero := by
    unfold countersIn
    cases map.get? userid with
    | none => rfl
    | some entry =>
        by_cases here : entry.date = today
        · simp only [Option.filter_some, decide_eq_true here, if_pos here, if_true]
        · simp only [Option.filter_some, decide_eq_false here, if_neg here, Bool.false_eq_true,
            if_false]
  rw [unfolded, unfolded, same]

theorem countersIn_of_earlier {byUser : OrderedMap Bytes DailyStats} {today : UInt32}
    (earlier : ∀ userid entry, byUser.get? userid = some entry → entry.date < today)
    (userid : Bytes) : countersIn byUser today userid = .zero := by
  unfold countersIn
  cases found : byUser.get? userid with
  | none => rfl
  | some entry => exact if_neg (ne_of_lt (earlier userid entry found))

section Loads

variable {strings : Strings} {today : UInt32}

theorem of_loaded {listed : List DailyStats} {byUser : OrderedMap Bytes DailyStats}
    {userid : Bytes} {entry : DailyStats}
    (found : (listed.foldl (loadEntry strings today) byUser).get? userid = some entry) :
    byUser.get? userid = some entry ∨
      (entry ∈ listed ∧ entry.date = today ∧ entry.userID ≠ [] ∧
        strings.toLower entry.userID = userid) := by
  induction listed generalizing byUser with
  | nil => exact Or.inl found
  | cons first rest ih =>
      rcases ih found with there | ⟨member, loaded⟩
      · unfold loadEntry at there
        by_cases current : first.date = today ∧ first.userID ≠ []
        · rw [if_pos current, OrderedMap.get?_set] at there
          by_cases same : userid = strings.toLower first.userID
          · rw [if_pos same] at there
            obtain rfl := Option.some.inj there
            exact Or.inr ⟨List.mem_cons_self, current.1, current.2, same.symm⟩
          · rw [if_neg same] at there
            exact Or.inl there
        · rw [if_neg current] at there
          exact Or.inl there
      · exact Or.inr ⟨List.mem_cons_of_mem _ member, loaded⟩

theorem foldl_loadEntry_get? {listed : List DailyStats} {byUser : OrderedMap Bytes DailyStats}
    (current : ∀ entry ∈ listed, entry.date = today ∧ entry.userID ≠ [])
    (apart : listed.Pairwise fun left right =>
      strings.toLower left.userID ≠ strings.toLower right.userID)
    (userid : Bytes) (entry : DailyStats) :
    (listed.foldl (loadEntry strings today) byUser).get? userid = some entry ↔
      (entry ∈ listed ∧ strings.toLower entry.userID = userid) ∨
        (byUser.get? userid = some entry ∧
          ∀ other ∈ listed, strings.toLower other.userID ≠ userid) := by
  induction listed generalizing byUser with
  | nil => simp
  | cons first rest ih =>
      obtain ⟨others, restApart⟩ := List.pairwise_cons.mp apart
      have step :
          loadEntry strings today byUser first =
            byUser.set (strings.toLower first.userID) first :=
        if_pos (current first List.mem_cons_self)
      rw [List.foldl_cons, step,
        ih (fun other member => current other (List.mem_cons_of_mem _ member)) restApart,
        OrderedMap.get?_set]
      by_cases here : userid = strings.toLower first.userID
      · subst here
        rw [if_pos rfl]
        constructor
        · rintro (⟨member, same⟩ | ⟨same, _⟩)
          · exact absurd same.symm (others entry member)
          · exact Or.inl ⟨Option.some.inj same ▸ List.mem_cons_self, by rw [Option.some.inj same]⟩
        · rintro (⟨member, same⟩ | ⟨_, none⟩)
          · rcases List.mem_cons.mp member with rfl | later
            · exact Or.inr ⟨rfl, fun other there => (others other there).symm⟩
            · exact Or.inl ⟨later, same⟩
          · exact absurd rfl (none first List.mem_cons_self)
      · rw [if_neg here]
        constructor
        · rintro (⟨member, same⟩ | ⟨old, none⟩)
          · exact Or.inl ⟨List.mem_cons_of_mem _ member, same⟩
          · refine Or.inr ⟨old, fun other there => ?_⟩
            rcases List.mem_cons.mp there with rfl | later
            · exact Ne.symm here
            · exact none other later
        · rintro (⟨member, same⟩ | ⟨old, none⟩)
          · rcases List.mem_cons.mp member with rfl | later
            · exact absurd same.symm here
            · exact Or.inl ⟨later, same⟩
          · exact Or.inr ⟨old, fun other there => none other (List.mem_cons_of_mem _ there)⟩

end Loads

end Pttbbs.StatSvc
