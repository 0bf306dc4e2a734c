/-
Runs of calls on the daily counters.

The counters of the day in memory differ from those in the file only while the storage is dirty,
as long as no save fails that had something to write: a save that fails has cleared the flag
already.
-/

import Pttbbs.StatSvc.Storage
import Pttbbs.Lib.CStr
import Pttbbs.Lib.Runs

namespace Pttbbs.StatSvc

open Pttbbs.Lib

structure World where
  store : Storage
  file : File
  today : UInt32
deriving DecidableEq

inductive Call where
  | incPost (userid : Bytes) (now : Int64)
  | addMail (userid : Bytes) (count : Int64) (now : Int64)
  | incSong (userid : Bytes) (now : Int64)
  | set (userid : Bytes) (postCount mailCount songCount : Option Int32) (now : Int64)
  | prune (today : UInt32)
  | save (now : Int64) (iteration : Iteration) (fault : Option Fault)
  /-- The clock has gone on to a day. -/
  | day (today : UInt32)

variable (strings : Strings)

def step (world : World) : Call → World
  | .incPost userid now =>
      { world with store := incPost strings world.store userid world.today now }
  | .addMail userid count now =>
      { world with store := addMail strings world.store userid count world.today now }
  | .incSong userid now =>
      { world with store := incSong strings world.store userid world.today now }
  | .set userid postCount mailCount songCount now =>
      { world with
        store := set strings world.store userid postCount mailCount songCount world.today now }
  | .prune today => { world with store := prune world.store today }
  | .save now iteration fault =>
      let (store, file, _) := save world.store world.file world.today now iteration fault
      { world with store := store, file := file }
  | .day today => { world with today := today }

/-- The counters of the day in memory differ from those in the file. -/
def Differs (world : World) : Prop :=
  ∃ userid, countersIn world.store.byUser world.today userid ≠
    countersIn (fileEntries strings world.file world.today) world.today userid

/-- The next periodic save writes what the file does not have. -/
def Unlost (world : World) : Prop :=
  Differs strings world → isDirty world.store = true

/-- Days do not go back. -/
def Forward (world : World) : Call → Prop
  | .day today => world.today ≤ today
  | _ => True

def SavesWhatDiffers (world : World) : Call → Prop
  | .save _ _ (some _) => ¬ Differs strings world
  | _ => True

def File.NotAfter (file : File) (today : UInt32) : Prop :=
  ∀ listed, file = .entries listed → ∀ entry ∈ listed, entry.date ≤ today

/-- What the calls keep: the storage has a file, every entry is found under its lower-case userid,
and neither the memory nor the file has entries of days to come. -/
structure Kept (world : World) : Prop where
  path : world.store.filePath ≠ []
  keys : ∀ userid entry, world.store.byUser.get? userid = some entry →
    strings.toLower entry.userID = userid ∧ entry.userID ≠ []
  memory : ∀ userid entry, world.store.byUser.get? userid = some entry →
    entry.date ≤ world.today
  file : world.file.NotAfter world.today

def Started (world : World) (filePath : Bytes) (now : Int64) : Prop :=
  load strings (newStorage filePath) world.file world.today now = some world.store

variable {strings}

theorem getOrCreateLocked_spec {world : World} (kept : Kept strings world) {userid : Bytes}
    (lower : strings.toLower userid = userid) (named : userid ≠ []) (now : Int64) :
    strings.toLower (getOrCreateLocked world.store userid world.today now).userID = userid ∧
      (getOrCreateLocked world.store userid world.today now).userID ≠ [] ∧
      (getOrCreateLocked world.store userid world.today now).date = world.today := by
  unfold getOrCreateLocked getEntryLocked
  rw [if_neg named]
  cases found : world.store.byUser.get? userid with
  | none => exact ⟨lower, named, rfl⟩
  | some entry =>
      obtain ⟨key, filled⟩ := kept.keys userid entry found
      by_cases current : entry.date = world.today
      · simp only [if_pos current]
        exact ⟨key, filled, current⟩
      · simp only [if_neg current]
        exact ⟨key, filled, trivial⟩

def Counts (change : DailyStats → DailyStats) : Prop :=
  ∀ entry, (change entry).userID = entry.userID ∧ (change entry).date = entry.date

theorem Kept.changeEntry {world : World} (kept : Kept strings world)
    {change : DailyStats → DailyStats} (counts : Counts change) (userid : Bytes) (now : Int64) :
    Kept strings { world with
      store := changeEntry strings world.store userid world.today now change } := by
  have lower : strings.toLower (normalize strings userid) = normalize strings userid :=
    strings.toLower_toLower _
  unfold StatSvc.changeEntry
  dsimp only
  by_cases named : normalize strings userid = []
  · rw [if_pos named]
    exact kept
  · rw [if_neg named]
    obtain ⟨key, filled, current⟩ := getOrCreateLocked_spec kept lower named now
    generalize getOrCreateLocked world.store (normalize strings userid) world.today now = entry
      at key filled current
    obtain ⟨sameID, sameDate⟩ := counts entry
    refine ⟨kept.path, ?_, ?_, kept.file⟩
    · intro other found there
      simp only [putEntry, if_neg named, OrderedMap.get?_set] at there
      split at there
      · rename_i same
        rw [← Option.some.inj there, sameID]
        exact ⟨key.trans same.symm, filled⟩
      · exact kept.keys other found there
    · intro other found there
      simp only [putEntry, if_neg named, OrderedMap.get?_set] at there
      split at there
      · rw [← Option.some.inj there, sameDate]
        exact le_of_eq current
      · exact kept.memory other found there

theorem Unlost.changeEntry {world : World} (unlost : Unlost strings world)
    (change : DailyStats → DailyStats) (userid : Bytes) (now : Int64) :
    Unlost strings { world with
      store := changeEntry strings world.store userid world.today now change } := by
  unfold StatSvc.changeEntry
  dsimp only
  by_cases named : normalize strings userid = []
  · rw [if_pos named]
    exact unlost
  · rw [if_neg named]
    exact fun _ => rfl

/-! ### Saves -/

section Save

variable {world : World}

theorem mem_currentEntries (store : Storage) (today : UInt32) (entry : DailyStats) :
    entry ∈ currentEntries store today ↔
      ∃ userid, store.byUser.get? userid = some entry ∧ entry.date = today := by
  rw [currentEntries, List.mem_filter, decide_eq_true_eq, List.mem_map]
  constructor
  · rintro ⟨⟨⟨userid, _⟩, member, rfl⟩, current⟩
    exact ⟨userid, store.byUser.get?_eq_some_iff.mpr member, current⟩
  · rintro ⟨userid, found, current⟩
    exact ⟨⟨(userid, entry), store.byUser.get?_eq_some_iff.mp found, rfl⟩, current⟩

theorem currentEntries_apart (kept : Kept strings world) (today : UInt32) :
    (currentEntries world.store today).Pairwise fun left right =>
      strings.toLower left.userID ≠ strings.toLower right.userID := by
  unfold currentEntries
  apply List.Pairwise.filter
  rw [List.pairwise_map]
  refine world.store.byUser.ordered.imp_of_mem ?_
  intro left right here there less
  rw [(kept.keys left.1 left.2 (world.store.byUser.get?_eq_some_iff.mpr here)).1,
    (kept.keys right.1 right.2 (world.store.byUser.get?_eq_some_iff.mpr there)).1]
  exact ne_of_lt less

theorem fileEntries_saved (kept : Kept strings world) (iteration : Iteration) (userid : Bytes) :
    (fileEntries strings (.entries (iteration.order (currentEntries world.store world.today)))
        world.today).get? userid =
      (world.store.byUser.get? userid).filter fun entry => entry.date = world.today := by
  have perm := iteration.perm (currentEntries world.store world.today)
  have member (entry : DailyStats) :
      entry ∈ iteration.order (currentEntries world.store world.today) ↔
        ∃ userid, world.store.byUser.get? userid = some entry ∧ entry.date = world.today :=
    perm.mem_iff.trans (mem_currentEntries _ _ _)
  have apart := (perm.pairwise_iff (fun different => Ne.symm different)).mpr
    (currentEntries_apart kept world.today)
  apply Option.ext
  intro entry
  unfold fileEntries
  rw [foldl_loadEntry_get? _ apart, OrderedMap.get?_empty, Option.filter_eq_some_iff,
    decide_eq_true_eq]
  · constructor
    · rintro (⟨listed, same⟩ | ⟨nothing, _⟩)
      · obtain ⟨other, found, current⟩ := (member entry).mp listed
        rw [← same, (kept.keys other entry found).1]
        exact ⟨found, current⟩
      · cases nothing
    · rintro ⟨found, current⟩
      exact Or.inl ⟨(member entry).mpr ⟨userid, found, current⟩, (kept.keys userid entry found).1⟩
  · intro entry listed
    obtain ⟨other, found, current⟩ := (member entry).mp listed
    exact ⟨current, (kept.keys other entry found).2⟩

theorem save_failed_file (store : Storage) (file : File) (today : UInt32) (now : Int64)
    (iteration : Iteration) (fault : Fault) :
    (save store file today now iteration (some fault)).2.1 = file := by
  unfold save
  by_cases path : store.filePath = []
  · rw [if_pos path]
  · rw [if_neg path]
    cases fault <;> rfl

theorem save_failed (store : Storage) (file : File) (today : UInt32) (now : Int64)
    (iteration : Iteration) (fault : Fault) (path : store.filePath ≠ []) :
    save store file today now iteration (some fault) =
      ({ store with dirty := false, lastSaved := some now }, file, none) := by
  unfold save
  rw [if_neg path]
  cases fault <;> rfl

theorem save_done (store : Storage) (file : File) (today : UInt32) (now : Int64)
    (iteration : Iteration) (path : store.filePath ≠ []) :
    save store file today now iteration none =
      ({ store with dirty := false, lastSaved := some now },
        .entries (iteration.order (currentEntries store today)),
        some (iteration.order (currentEntries store today)).length) := by
  unfold save
  rw [if_neg path]

theorem step_save (strings : Strings) (world : World) (now : Int64) (iteration : Iteration)
    (fault : Option Fault) :
    step strings world (.save now iteration fault) =
      { store := (save world.store world.file world.today now iteration fault).1
        file := (save world.store world.file world.today now iteration fault).2.1
        today := world.today } := rfl

theorem not_differs_saved (kept : Kept strings world) (now : Int64) (iteration : Iteration) :
    ¬ Differs strings (step strings world (.save now iteration none)) := by
  rintro ⟨userid, different⟩
  rw [step_save, save_done _ _ _ _ _ kept.path] at different
  refine different (countersIn_congr ?_)
  dsimp only
  rw [fileEntries_saved kept, Option.filter_filter]
  simp only [Bool.and_self]

theorem Kept.save (kept : Kept strings world) (now : Int64) (iteration : Iteration)
    (fault : Option Fault) : Kept strings (step strings world (.save now iteration fault)) := by
  rw [step_save]
  cases fault with
  | some fault =>
      rw [save_failed _ _ _ _ _ _ kept.path]
      exact ⟨kept.path, kept.keys, kept.memory, kept.file⟩
  | none =>
      rw [save_done _ _ _ _ _ kept.path]
      refine ⟨kept.path, kept.keys, kept.memory, ?_⟩
      intro listed same entry member
      rw [← File.entries.inj same] at member
      have current := (iteration.perm _).mem_iff.mp member
      obtain ⟨userid, found, _⟩ := (mem_currentEntries _ _ _).mp current
      exact kept.memory userid entry found

end Save

/-! ### Runs -/

theorem Kept.step {world : World} (kept : Kept strings world) (call : Call)
    (forward : Forward world call) : Kept strings (step strings world call) := by
  cases call with
  | incPost userid now =>
      refine kept.changeEntry ?_ userid now
      exact fun _ => ⟨rfl, rfl⟩
  | addMail userid count now =>
      have counts : Counts fun entry =>
          { entry with
            mailCount := entry.mailCount + (if count ≤ 0 then 1 else count).toInt32
            updatedAt := now } :=
        fun _ => ⟨rfl, rfl⟩
      exact kept.changeEntry counts userid now
  | incSong userid now =>
      refine kept.changeEntry ?_ userid now
      exact fun _ => ⟨rfl, rfl⟩
  | set userid postCount mailCount songCount now =>
      refine kept.changeEntry ?_ userid now
      exact fun _ => ⟨rfl, rfl⟩
  | prune today =>
      refine ⟨kept.path, ?_, ?_, kept.file⟩
      · intro userid entry found
        rw [StatSvc.step, prune, OrderedMap.get?_keep, Option.filter_eq_some_iff] at found
        exact kept.keys userid entry found.1
      · intro userid entry found
        rw [StatSvc.step, prune, OrderedMap.get?_keep, Option.filter_eq_some_iff] at found
        exact kept.memory userid entry found.1
  | save now iteration fault => exact kept.save now iteration fault
  | day today =>
      refine ⟨kept.path, kept.keys, ?_, ?_⟩
      · exact fun userid entry found => le_trans (kept.memory userid entry found) forward
      · exact fun listed same entry member =>
          le_trans (kept.file listed same entry member) forward

theorem of_fileEntries {file : File} {today : UInt32} {userid : Bytes} {entry : DailyStats}
    (found : (fileEntries strings file today).get? userid = some entry) :
    ∃ listed, file = .entries listed ∧ entry ∈ listed ∧ entry.date = today ∧
      entry.userID ≠ [] ∧ strings.toLower entry.userID = userid := by
  cases file with
  | missing => cases found
  | malformed => cases found
  | entries listed =>
      rcases of_loaded found with there | loaded
      · cases there
      · exact ⟨listed, rfl, loaded⟩

theorem not_differs_of_newDay {world : World} (kept : Kept strings world) {today : UInt32}
    (later : world.today < today) : ¬ Differs strings { world with today := today } := by
  rintro ⟨userid, different⟩
  refine different ?_
  rw [countersIn_of_earlier
    fun userid entry found => lt_of_le_of_lt (kept.memory userid entry found) later]
  unfold countersIn
  cases found : (fileEntries strings world.file today).get? userid with
  | none => rfl
  | some entry =>
      obtain ⟨listed, same, member, current, _⟩ := of_fileEntries found
      have early := kept.file listed same entry member
      rw [current] at early
      exact absurd early (not_le_of_gt later)

theorem not_unlost_of_failed {world : World} (kept : Kept strings world)
    (differs : Differs strings world) (now : Int64) (iteration : Iteration) (fault : Fault) :
    ¬ Unlost strings (step strings world (.save now iteration (some fault))) := by
  intro unlost
  rw [step_save, save_failed _ _ _ _ _ _ kept.path] at unlost
  exact absurd (unlost differs) Bool.false_ne_true

theorem prune_dirty_or (store : Storage) (today : UInt32) :
    (prune store today).dirty = true ∨ prune store today = store := by
  unfold prune
  dsimp only
  split
  · exact Or.inl rfl
  · rename_i none
    have same : (store.byUser.keep fun _ entry => ¬ entry.date < today).entries =
        store.byUser.entries := by
      apply List.filter_eq_self.mpr
      apply List.length_filter_eq_length_iff.mp
      refine Nat.le_antisymm (List.length_filter_le _ _) ?_
      exact Nat.le_of_sub_eq_zero (Nat.eq_zero_of_not_pos none)
    have whole : store.byUser.keep (fun _ entry => ¬ entry.date < today) = store.byUser := by
      apply OrderedMap.ext_get?
      intro key
      rw [OrderedMap.get?, OrderedMap.get?, same]
    rw [whole]
    exact Or.inr rfl

theorem Unlost.step {world : World} (kept : Kept strings world) (unlost : Unlost strings world)
    (call : Call) (forward : Forward world call) (saves : SavesWhatDiffers strings world call) :
    Unlost strings (step strings world call) := by
  cases call with
  | incPost userid now => exact unlost.changeEntry _ userid now
  | addMail userid count now => exact unlost.changeEntry _ userid now
  | incSong userid now => exact unlost.changeEntry _ userid now
  | set userid postCount mailCount songCount now => exact unlost.changeEntry _ userid now
  | prune today =>
      change Unlost strings { world with store := prune world.store today }
      rcases prune_dirty_or world.store today with dirty | same
      · exact fun _ => dirty
      · rw [same]
        exact unlost
  | save now iteration fault =>
      cases fault with
      | none => exact fun differs => absurd differs (not_differs_saved kept now iteration)
      | some fault =>
          intro differs
          rw [step_save, save_failed _ _ _ _ _ _ kept.path] at differs
          exact absurd differs saves
  | day today =>
      intro differs
      rcases lt_or_eq_of_le forward with later | same
      · exact absurd differs (not_differs_of_newDay kept later)
      · subst same
        exact unlost differs

theorem started_byUser {world : World} {filePath : Bytes} {now : Int64} (path : filePath ≠ [])
    (started : Started strings world filePath now) :
    world.store.filePath = filePath ∧
      world.store.byUser = fileEntries strings world.file world.today := by
  unfold Started load at started
  rw [if_neg (show (newStorage filePath).filePath ≠ [] from path)] at started
  cases content : world.file with
  | missing =>
      rw [content] at started
      rw [← Option.some.inj started]
      exact ⟨rfl, rfl⟩
  | malformed =>
      rw [content] at started
      cases started
  | entries listed =>
      rw [content] at started
      rw [← Option.some.inj started]
      exact ⟨rfl, rfl⟩

theorem kept_of_started {world : World} {filePath : Bytes} {now : Int64} (path : filePath ≠ [])
    (early : world.file.NotAfter world.today) (started : Started strings world filePath now) :
    Kept strings world := by
  obtain ⟨samePath, same⟩ := started_byUser path started
  refine ⟨samePath ▸ path, ?_, ?_, early⟩
  · intro userid entry found
    rw [same] at found
    obtain ⟨_, _, _, _, named, key⟩ := of_fileEntries found
    exact ⟨key, named⟩
  · intro userid entry found
    rw [same] at found
    obtain ⟨_, _, _, current, _⟩ := of_fileEntries found
    exact le_of_eq current

theorem unlost_of_started {world : World} {filePath : Bytes} {now : Int64} (path : filePath ≠ [])
    (started : Started strings world filePath now) : Unlost strings world := by
  rintro ⟨userid, different⟩
  rw [(started_byUser path started).2] at different
  exact absurd rfl different

/-- In every state reached what is counted is in the file or the storage is dirty, if and only
if no save fails that has something to write. -/
theorem unlost_iff_saves {start : World} (kept : Kept strings start)
    (unlost : Unlost strings start) (calls : List Call)
    (forward : StepsMeet (step strings) Forward start calls) :
    (∀ before, before <+: calls → Unlost strings (run (step strings) start before)) ↔
      StepsMeet (step strings) (SavesWhatDiffers strings) start calls := by
  induction calls generalizing start with
  | nil =>
      refine ⟨fun _ => trivial, fun _ before front => ?_⟩
      rw [List.prefix_nil.mp front]
      exact unlost
  | cons call rest ih =>
      constructor
      · intro all
        have first : SavesWhatDiffers strings start call := by
          cases call with
          | save now iteration fault =>
              cases fault with
              | none => trivial
              | some fault =>
                  intro differs
                  exact not_unlost_of_failed kept differs now iteration fault
                    (all [.save now iteration (some fault)] ⟨rest, rfl⟩)
          | incPost userid now => trivial
          | addMail userid count now => trivial
          | incSong userid now => trivial
          | set userid postCount mailCount songCount now => trivial
          | prune today => trivial
          | day today => trivial
        have next := unlost.step kept call forward.1 first
        refine ⟨first, (ih (kept.step call forward.1) next forward.2).mp fun before front => ?_⟩
        exact all (call :: before) ((List.cons_prefix_cons).mpr ⟨rfl, front⟩)
      · intro saves before front
        cases before with
        | nil => exact unlost
        | cons first front' =>
            obtain ⟨rfl, later⟩ := List.cons_prefix_cons.mp front
            have next := unlost.step kept first forward.1 saves.1
            exact (ih (kept.step first forward.1) next forward.2).mpr saves.2 front' later

theorem kept_run {start : World} (kept : Kept strings start) {calls : List Call}
    (forward : StepsMeet (step strings) Forward start calls) :
    Kept strings (run (step strings) start calls) :=
  @invariant_run World Call (step strings) Forward (Kept strings)
    (fun _ call here meets => here.step call meets) start calls kept forward

def Restores (strings : Strings) (world : World) : Prop :=
  ∀ now later iteration, ∃ loaded,
    load strings (newStorage world.store.filePath)
        (save world.store world.file world.today now iteration none).2.1 world.today later =
      some loaded ∧
    ∀ userid, loaded.byUser.get? userid =
      (world.store.byUser.get? userid).filter fun entry => entry.date = world.today

theorem restores_of_kept {world : World} (kept : Kept strings world) :
    Restores strings world := by
  intro now later iteration
  rw [save_done _ _ _ _ _ kept.path, load,
    if_neg (show (newStorage world.store.filePath).filePath ≠ [] from kept.path)]
  exact ⟨_, rfl, fileEntries_saved kept iteration⟩

def FailedKeeps (world : World) : Prop :=
  ∀ now iteration fault,
    (save world.store world.file world.today now iteration (some fault)).2.1 = world.file

/-- From a loaded file with no entries of days to come, over any calls on days that do not go
back: failed saves keep the file and loads restore what has been saved, and what is counted is in
the file or the storage is dirty in every state reached if and only if no save fails that has
something to write. -/
theorem unlost_run_iff {start : World} {filePath : Bytes} {now : Int64} (path : filePath ≠ [])
    (early : start.file.NotAfter start.today) (started : Started strings start filePath now)
    (calls : List Call) (forward : StepsMeet (step strings) Forward start calls) :
    (FailedKeeps (run (step strings) start calls) ∧
      Restores strings (run (step strings) start calls)) ∧
    ((∀ before, before <+: calls → Unlost strings (run (step strings) start before)) ↔
      StepsMeet (step strings) (SavesWhatDiffers strings) start calls) := by
  have kept := kept_of_started path early started
  refine ⟨⟨fun now iteration fault => save_failed_file _ _ _ now iteration fault, ?_⟩, ?_⟩
  · exact restores_of_kept (kept_run kept forward)
  · exact unlost_iff_saves kept (unlost_of_started path started) calls forward

/-! ### A failed save -/

def plainStrings : Strings where
  toLower text := text.map CStr.lower
  trimSpace text := text
  toLower_toLower text := by
    rw [List.map_map]
    exact List.map_congr_left fun byte _ => CStr.lower_lower byte

def sameOrder : Iteration where
  order entries := entries
  perm entries := List.Perm.refl entries

def fresh : World where
  store := newStorage [115]
  file := .missing
  today := 20261021

theorem unlost_run_iff_fresh :
    (FailedKeeps (run (step plainStrings) fresh [.incPost [98, 111, 98] 7]) ∧
      Restores plainStrings (run (step plainStrings) fresh [.incPost [98, 111, 98] 7])) ∧
    ((∀ before, before <+: [Call.incPost [98, 111, 98] 7] →
        Unlost plainStrings (run (step plainStrings) fresh before)) ↔
      StepsMeet (step plainStrings) (SavesWhatDiffers plainStrings) fresh
        [.incPost [98, 111, 98] 7]) :=
  @unlost_run_iff plainStrings fresh [115] 0 (by decide) (fun _ same => nomatch same) rfl
    [.incPost [98, 111, 98] 7] ⟨trivial, trivial⟩

def lostPost : List Call := [.incPost [98, 111, 98] 7, .save 8 sameOrder (some .rename)]

theorem not_unlost_lostPost : ¬ Unlost plainStrings (run (step plainStrings) fresh lostPost) := by
  intro unlost
  refine absurd (unlost ⟨[98, 111, 98], ?_⟩) ?_
  · decide
  · decide

end Pttbbs.StatSvc
