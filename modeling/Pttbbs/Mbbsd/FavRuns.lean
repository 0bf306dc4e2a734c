/-
Runs of operations on the favourites.

In every run whose steps meet the condition, the counters of all folders, the
global counter and the ids are right.  The condition names what goes wrong
otherwise: a board counted without being a favourite, a folder removed with
favourites below it, an id or a counter that does not fit a byte, and a line
that brings its id with it.
-/

import Pttbbs.Mbbsd.FavFile

namespace Pttbbs.Mbbsd.Favourites

open Pttbbs.Lib

def Stored (fields : List Field) : Prop :=
  ∃ fav : Fav, fields = writeFavrec fav ∧ fav.Sound ∧ isNeedRebuildFav fav.items = false ∧
    (totalItems fav.items : Int) ≤ maxFav

structure Counted (state : FavState) : Prop where
  sound : state.root.Sound
  number : state.number = totalItems state.root.items
  bounded : state.number ≤ maxFav
  stored : ∀ fields, state.file = some fields → Stored fields

section Put

variable {state : FavState} {path : List Nat} {fav new : Fav}

theorem Counted.put (counted : Counted state) (found : state.root.getAt path = some fav)
    (sound : new.Sound) {number : Int}
    (change : number + totalItems fav.items = state.number + totalItems new.items)
    (bounded : number ≤ maxFav) : Counted (state.put path new number) := by
  have total := @totalItems_putAt state.root fav new path found
  have old := counted.number
  refine ⟨counted.sound.putAt found sound, ?_, bounded, counted.stored⟩
  change number = totalItems (state.root.putAt path new).items
  omega

theorem Counted.few (counted : Counted state) : totalItems state.root.items ≤ 1024 := by
  have number := counted.number
  have bounded := counted.bounded
  unfold maxFav at bounded
  omega

theorem totalItems_getAt (found : fav.getAt path = some new) :
    totalItems new.items ≤ totalItems fav.items := by
  induction path generalizing fav with
  | nil =>
      cases found
      exact Nat.le_refl _
  | cons index path ih =>
      obtain ⟨attr, fid, counts, items, here, isFav, found⟩ := getAt_cons found
      have below := @ih { counts := counts, items := items } found
      have less := totalItems_set here (.board {} 0)
      rw [FavItem.total_folder isFav] at less
      change _ = totalItems fav.items + 0 at less
      dsimp only at below
      omega

theorem number_le_largest (sound : fav.Sound) (few : totalItems fav.items ≤ 32767)
    (type : ItemType) : fav.counts.number type ≤ largest type := by
  cases type with
  | board =>
      have bound := Nat.le_trans (countOf_le_countValid .board fav.items)
        (countValid_le_total fav.items)
      rw [sound.own.numbers]
      change _ ≤ (32767 : Int)
      omega
  | line => exact sound.narrow .line nofun
  | folder => exact sound.narrow .folder nofun

end Put

/-! ### Adding -/

/-- The item that is appended to a folder: its id is new, its counter has room, and so has
`DataTail`, which is a `short`. -/
structure Fits (fav : Fav) (item : FavItem) : Prop where
  room : item.type ≠ .board → fav.counts.number item.type < 127
  fresh : item.type ≠ .board → item.id ∉ idsOf item.type fav.items
  short : fav.items.length < 32760

instance (fav : Fav) (item : FavItem) : Decidable (Fits fav item) :=
  decidable_of_iff
    ((item.type ≠ .board → fav.counts.number item.type < 127) ∧
      (item.type ≠ .board → item.id ∉ idsOf item.type fav.items) ∧ fav.items.length < 32760)
    ⟨fun ⟨room, fresh, short⟩ => ⟨room, fresh, short⟩, fun fits => ⟨fits.room, fits.fresh, fits.short⟩⟩

section Add

variable {state : FavState} {path : List Nat} {fav : Fav} {item : FavItem}

theorem totalItems_single (items : List FavItem) (item : FavItem) :
    totalItems (items ++ [item]) = totalItems items + item.total := by
  rw [totalItems_append, totalItems, totalItems, Nat.add_zero]

theorem append_sound (sound : fav.Sound) (few : totalItems fav.items ≤ 1024)
    (isValid : item.valid = true) (itemSound : item.Sound) {increased : FavItem}
    (same : increased.type = item.type)
    (fits : Fits fav item) :
    Fav.Sound { counts := (favIncrease fav.counts increased).1, items := fav.items ++ [item] } := by
  have room : fav.counts.number increased.type < largest increased.type := by
    rw [same]
    cases type : item.type with
    | board =>
        have bound := Nat.le_trans (countOf_le_countValid .board fav.items)
          (countValid_le_total fav.items)
        rw [sound.own.numbers]
        change _ < (32767 : Int)
        omega
    | line =>
        have bound := fits.room (by rw [type]; exact nofun)
        rwa [type] at bound
    | folder =>
        have bound := fits.room (by rw [type]; exact nofun)
        rwa [type] at bound
  have stepped := favIncrease_stepped (sound.own.natural increased.type) room
  rw [same] at stepped
  exact sound.append stepped fits.room isValid itemSound fits.fresh

theorem Counted.preappend (counted : Counted state) (found : state.root.getAt path = some fav)
    (isValid : item.valid = true) (itemSound : item.Sound) (one : item.total = 1)
    (notFull : state.isMaxsize = false)
    (fits : Fits fav (favIncrease fav.counts item).2) :
    Counted (state.put path (fav.preappend item) (state.number + 1)) := by
  have sound := counted.sound.getAt found
  have few := Nat.le_trans (totalItems_getAt found) counted.few
  have valid : (favIncrease fav.counts item).2.valid = true := by
    rw [favIncrease_valid, isValid]
  have new : (fav.preappend item).Sound :=
    append_sound sound few valid ((favIncrease_sound _ _).mpr itemSound)
      (favIncrease_type _ _).symm fits
  apply counted.put found new
  · rw [Fav.preappend, totalItems_single, favIncrease_total, one]
    push_cast
    omega
  · have below : ¬ maxFav ≤ state.number := of_decide_eq_false notFull
    omega

end Add

/-! ### The operations and what they rely on -/

inductive FavOp where
  | addBoard (path : List Nat) (bid : Int)
  | addLine (path : List Nat)
  | addFolder (path : List Nat)
  | addAdmtag (bid : Int)
  | removeItem (path : List Nat) (type : ItemType) (id : Int)
  | tag (path : List Nat) (type : ItemType) (id : Int) (tag : Bool → Bool)
  | removeAllTagged (path : List Nat)
  | addAllTagged (path : List Nat)
  | removeAllTag
  | move (path : List Nat) (src dst : Nat)
  | cleanup
  | rebuild (path : List Nat)
  | save
  | reload

def FavState.step (state : FavState) : FavOp → FavState
  | .addBoard path bid => state.favAddBoard path bid
  | .addLine path => state.favAddLine path
  | .addFolder path => state.favAddFolder path
  | .addAdmtag bid => state.favAddAdmtag bid
  | .removeItem path type id => state.favRemoveItem path type id
  | .tag path type id tag => state.favTag path type id tag
  | .removeAllTagged path => state.favRemoveAllTaggedItem path
  | .addAllTagged path => state.favAddAllTaggedItem path
  | .removeAllTag => state.favRemoveAllTag
  | .move path src dst => state.moveInCurrentFolder path src dst
  | .cleanup => state.favCleanup
  | .rebuild path => state.rebuild path
  | .save => state.favSave
  | .reload => state.favSave.favLoad

def OnFolder (state : FavState) (path : List Nat) (holds : Fav → Prop) : Prop :=
  ∀ fav ∈ state.root.getAt path, holds fav

instance (state : FavState) (path : List Nat) (holds : Fav → Prop)
    [∀ fav, Decidable (holds fav)] : Decidable (OnFolder state path holds) :=
  inferInstanceAs (Decidable (∀ fav ∈ state.root.getAt path, holds fav))

def Adds (state : FavState) (path : List Nat) (refused : Fav → Bool) (item : FavItem) : Prop :=
  OnFolder state path fun fav =>
    state.isMaxsize = true ∨ refused fav = true ∨ Fits fav (favIncrease fav.counts item).2

def NothingBelow (state : FavState) (place : Place) : Prop :=
  ∀ item ∈ state.itemAt place, item.total = 1

/-- A tagged item that goes is on the stack, or there is no favourite below it. -/
def RemoveFine (current : List Nat) (state : FavState) (place : Place) : Prop :=
  FavState.onStack current place = true ∨
    ∀ item ∈ state.itemAt place, (item.valid && item.attr.tag) = true → item.total = 1

/-- A tagged item that moves is on the stack, or there is one more place in the tree and
the item fits the folder it goes to. -/
def MoveFine (current : List Nat) (state : FavState) (place : Place) : Prop :=
  FavState.onStack current place = true ∨
    ∀ item ∈ state.itemAt place, (item.valid && item.attr.tag) = true →
      state.isMaxsize = false ∧ OnFolder state current fun target =>
        Fits target (FavState.moved item
          (favIncrease target.counts (item.setAttr { fav := true })).2)

def Meets (state : FavState) : FavOp → Prop
  | .addBoard path bid =>
      Adds state path (fun fav => (fav.find .board bid).isSome) (.board { fav := true } bid)
  | .addLine path => Adds state path (fun fav => maxLine ≤ fav.counts.nLines)
      (.line { fav := true } 0)
  | .addFolder path => Adds state path
      (fun fav => favMaxDepth ≤ path.length + 1 || maxFolder ≤ fav.counts.nFolders)
      (.folder { fav := true } 0 {} [])
  | .addAdmtag _ => state.isMaxsize = true
  | .removeItem path type id => OnFolder state path fun fav =>
      ∀ index ∈ fav.find type id, NothingBelow state (path, index)
  | .removeAllTagged path =>
      StepsMeet (FavState.dosomethingTagged (FavState.removeTaggedItem path)) (RemoveFine path)
        state (allPlaces state.root)
  | .addAllTagged path =>
      StepsMeet (FavState.dosomethingTagged (FavState.addAndRemoveTag path)) (MoveFine path)
        state (FavState.otherPlaces path state.root)
  | _ => True

instance (state : FavState) (path : List Nat) (refused : Fav → Bool) (item : FavItem) :
    Decidable (Adds state path refused item) :=
  inferInstanceAs (Decidable (OnFolder _ _ _))

instance (state : FavState) (place : Place) : Decidable (NothingBelow state place) :=
  inferInstanceAs (Decidable (∀ item ∈ state.itemAt place, item.total = 1))

instance (current : List Nat) (state : FavState) (place : Place) :
    Decidable (RemoveFine current state place) :=
  inferInstanceAs (Decidable (_ ∨ ∀ item ∈ state.itemAt place, _ → item.total = 1))

instance (current : List Nat) (state : FavState) (place : Place) :
    Decidable (MoveFine current state place) :=
  inferInstanceAs (Decidable (_ ∨ ∀ item ∈ state.itemAt place, _ → _ ∧ _))

instance (state : FavState) (op : FavOp) : Decidable (Meets state op) :=
  match op with
  | .addBoard _ _ | .addLine _ | .addFolder _ => inferInstanceAs (Decidable (Adds _ _ _ _))
  | .addAdmtag _ => inferInstanceAs (Decidable (_ = true))
  | .removeItem path type id => inferInstanceAs (Decidable (OnFolder state path fun fav =>
      ∀ index ∈ fav.find type id, NothingBelow state (path, index)))
  | .removeAllTagged _ | .addAllTagged _ => inferInstanceAs (Decidable (StepsMeet _ _ _ _))
  | .tag _ _ _ _ | .removeAllTag | .move _ _ _ | .cleanup | .rebuild _ | .save | .reload =>
      inferInstanceAs (Decidable True)

section Steps

variable {state : FavState} {path : List Nat}

theorem counted_addLine (counted : Counted state) (meets : Meets state (.addLine path)) :
    Counted (state.favAddLine path) := by
  unfold FavState.favAddLine
  split
  · exact counted
  · rename_i fav found
    have allows := meets fav found
    split
    · exact counted
    · rename_i allowed
      rw [Bool.or_eq_true, not_or, Bool.not_eq_true, Bool.not_eq_true] at allowed
      dsimp only at allows
      rw [allowed.1, allowed.2] at allows
      have fits := (allows.resolve_left nofun).resolve_left nofun
      exact counted.preappend found rfl trivial rfl allowed.1 fits

theorem counted_addFolder (counted : Counted state) (meets : Meets state (.addFolder path)) :
    Counted (state.favAddFolder path) := by
  unfold FavState.favAddFolder
  split
  · exact counted
  · rename_i fav found
    have allows := meets fav found
    split
    · exact counted
    · rename_i allowed
      rw [Bool.or_assoc, Bool.or_eq_true, not_or, Bool.not_eq_true, Bool.not_eq_true] at allowed
      dsimp only at allows
      rw [allowed.1, allowed.2] at allows
      have fits := (allows.resolve_left nofun).resolve_left nofun
      have empty : (FavItem.folder { fav := true } 0 {} []).Sound := by
        rw [FavItem.Sound]
        refine fun _ => ⟨⟨fun type => ?_, fun type _ => List.nodup_nil⟩, fun type notBoard => ?_,
          trivial⟩
        · cases type <;> rfl
        · cases type <;> decide
      exact counted.preappend found rfl empty rfl allowed.1 fits

theorem counted_addBoard {bid : Int} (counted : Counted state)
    (meets : Meets state (.addBoard path bid)) : Counted (state.favAddBoard path bid) := by
  unfold FavState.favAddBoard
  split
  · exact counted
  · rename_i fav found
    have allows := meets fav found
    split
    · exact counted
    · rename_i allowed
      rw [Bool.or_eq_true, not_or, Bool.not_eq_true, Bool.not_eq_true] at allowed
      dsimp only at allows
      rw [allowed.1, allowed.2] at allows
      have fits := (allows.resolve_left nofun).resolve_left nofun
      exact counted.preappend found rfl trivial rfl allowed.2 fits

end Steps

/-! ### Removing and tagging -/

section Remove

variable {state : FavState} {path : List Nat} {fav : Fav} {index : Nat} {item : FavItem}

theorem totalItems_remove (here : fav.items[index]? = some item) (gone : FavItem → FavItem) :
    totalItems (fav.remove index gone).items + item.total = totalItems fav.items := by
  have invalid : ((gone item).setAttr {}).valid = false := by
    cases gone item <;> rfl
  have set := totalItems_set here ((gone item).setAttr {})
  rw [total_of_invalid invalid] at set
  rw [Fav.remove, here]
  exact set

theorem Counted.removeAt (counted : Counted state) (found : state.root.getAt path = some fav)
    (here : fav.items[index]? = some item) (isValid : item.valid = true) (one : item.total = 1)
    (gone : FavItem → FavItem) :
    Counted (state.put path (fav.remove index gone) (state.number - 1)) := by
  have sound := counted.sound.getAt found
  have few := Nat.le_trans (totalItems_getAt found) counted.few
  have less := totalItems_remove here gone
  have room := number_le_largest sound (Nat.le_trans few (by decide)) item.type
  apply counted.put found (sound.remove here isValid room gone)
  · omega
  · have bounded := counted.bounded
    omega

theorem Fav.find_spec {type : ItemType} {id : Int} (found : fav.find type id = some index) :
    ∃ item, fav.items[index]? = some item ∧ item.valid = true := by
  obtain ⟨bound, isIt, _first⟩ := List.findIdx?_eq_some_iff_getElem.mp found
  rw [Bool.and_eq_true, Bool.and_eq_true] at isIt
  exact ⟨fav.items[index], List.getElem?_eq_getElem bound, isIt.1.1⟩

theorem counted_removeItem {type : ItemType} {id : Int} (counted : Counted state)
    (meets : Meets state (.removeItem path type id)) :
    Counted (state.favRemoveItem path type id) := by
  unfold FavState.favRemoveItem
  split
  · exact counted
  · rename_i fav found
    have allows := meets fav found
    split
    · exact counted
    · rename_i index isFound
      obtain ⟨item, here, isValid⟩ := Fav.find_spec isFound
      have at' : state.itemAt (path, index) = some item := by
        rw [FavState.itemAt, found]
        exact here
      exact counted.removeAt found here isValid (allows index isFound item at') _

theorem Counted.setTag (counted : Counted state) (path : List Nat) (index : Nat)
    (tag : Bool → Bool) : Counted (state.setTag path index tag) := by
  unfold FavState.setTag
  split
  · exact counted
  · rename_i fav found
    split
    · exact counted
    · rename_i item here
      have sound := counted.sound.getAt found
      obtain ⟨new, isNew⟩ : ∃ new, new = item.setAttr { item.attr with tag := tag item.attr.tag } :=
        ⟨_, rfl⟩
      have same : new.seen = item.seen ∧ new.total = item.total ∧ (item.Sound → new.Sound) := by
        rw [isNew]
        cases item with
        | board attr bid => exact ⟨rfl, rfl, fun _ => trivial⟩
        | line attr lid => exact ⟨rfl, rfl, fun _ => trivial⟩
        | folder attr fid counts items =>
            refine ⟨rfl, rfl, fun sound => ?_⟩
            rw [FavItem.Sound] at sound
            rw [FavItem.setAttr, FavItem.Sound]
            exact sound
      have itemSound := allSound_iff.mp sound.below item (List.mem_of_getElem? here)
      have seen : (fav.items.set index new).map FavItem.seen = fav.items.map FavItem.seen := by
        rw [List.map_set, same.1]
        apply set_eq_self
        rw [List.getElem?_map, here]
        rfl
      have total := totalItems_set here new
      dsimp only
      rw [← isNew]
      apply counted.put found (sound.congr seen (sound.below.set (same.2.2 itemSound) index))
      · change _ = state.number + (totalItems (fav.items.set index new) : Int)
        omega
      · exact counted.bounded

theorem counted_tag {type : ItemType} {id : Int} {tag : Bool → Bool} (counted : Counted state) :
    Counted (state.favTag path type id tag) := by
  unfold FavState.favTag
  split
  · exact counted
  · split
    · exact counted
    · exact counted.setTag path _ tag

theorem counted_removeAllTag (counted : Counted state) : Counted state.favRemoveAllTag := by
  unfold FavState.favRemoveAllTag
  refine invariant_run_of_step (fun state place counted => ?_) counted (allPlaces state.root)
  unfold FavState.dosomethingTagged
  split
  · exact counted
  · split
    · exact counted.setTag _ _ _
    · exact counted

theorem counted_removeTagged {current : List Nat} {place : Place} (counted : Counted state)
    (fine : RemoveFine current state place) :
    Counted (FavState.dosomethingTagged (FavState.removeTaggedItem current) state place) := by
  unfold FavState.dosomethingTagged
  cases at' : state.itemAt place with
  | none => exact counted
  | some item =>
      dsimp only
      split
      · rename_i tagged
        unfold FavState.removeTaggedItem
        split
        · exact counted.setTag _ _ _
        · rename_i notOnStack
          have one := fine.resolve_left notOnStack item at' tagged
          obtain ⟨fav, found, here⟩ := Option.bind_eq_some_iff.mp at'
          rw [found]
          exact counted.removeAt found here (Bool.and_eq_true_iff.mp tagged).1 one _
      · exact counted

end Remove

/-! ### Moving -/

theorem itemAt_putAt {current path : List Nat} {index : Nat} {root target : Fav}
    {counts : Counts} {more item : FavItem}
    (notOnStack : ¬ (path ++ [index]) <+: current) (found : root.getAt current = some target)
    (here : (root.getAt path).bind (fun fav => fav.items[index]?) = some item) :
    ((root.putAt current { counts := counts, items := target.items ++ [more] }).getAt path).bind
      (fun fav => fav.items[index]?) = some item := by
  induction current generalizing root path with
  | nil =>
      obtain rfl : root = target := Option.some.inj found
      rw [Fav.putAt]
      have kept : ∀ {place : Nat} {old : FavItem}, root.items[place]? = some old →
          (root.items ++ [more])[place]? = some old := by
        intro place old isOld
        obtain ⟨bound, _same⟩ := List.getElem?_eq_some_iff.mp isOld
        rw [List.getElem?_append_left bound]
        exact isOld
      cases path with
      | nil => exact kept here
      | cons first path =>
          obtain ⟨fav, foundFav, atIndex⟩ := Option.bind_eq_some_iff.mp here
          obtain ⟨attr, fid, sub, items, isFolder, isFav, below⟩ := getAt_cons foundFav
          rw [Fav.getAt, kept isFolder]
          dsimp only
          rw [if_pos isFav, below]
          exact atIndex
  | cons place current ih =>
      obtain ⟨attr, fid, sub, items, isFolder, isFav, foundBelow⟩ := getAt_cons found
      rw [putAt_cons isFolder]
      cases path with
      | nil =>
          have other : place ≠ index := by
            intro same
            subst same
            exact notOnStack (List.prefix_append [place] current)
          change (root.items.set place _)[index]? = some item
          rw [List.getElem?_set_ne other]
          exact here
      | cons first path =>
          obtain ⟨fav, foundFav, atIndex⟩ := Option.bind_eq_some_iff.mp here
          obtain ⟨attr', fid', sub', items', isFolder', isFav', below⟩ := getAt_cons foundFav
          rw [Fav.getAt]
          by_cases same : first = place
          · subst same
            rw [isFolder] at isFolder'
            cases isFolder'
            obtain ⟨bound, _same⟩ := List.getElem?_eq_some_iff.mp isFolder
            dsimp only
            rw [List.getElem?_set_self bound]
            dsimp only
            rw [if_pos isFav]
            apply ih _ foundBelow
            · rw [below]
              exact atIndex
            · intro onWay
              exact notOnStack (List.cons_prefix_cons.mpr ⟨rfl, onWay⟩)
          · dsimp only
            rw [List.getElem?_set_ne (Ne.symm same), isFolder']
            dsimp only
            rw [if_pos isFav', below]
            exact atIndex

section Move

variable {state : FavState}

theorem moved_spec (counts : Counts) {item : FavItem} :
    let new := FavState.moved item (favIncrease counts (item.setAttr { fav := true })).2
    new.valid = true ∧ new.type = item.type ∧
      (item.valid = true → (item.Sound → new.Sound) ∧ new.total = item.total) := by
  cases item with
  | board attr bid =>
      refine ⟨rfl, rfl, fun isValid => ⟨fun _ => trivial, ?_⟩⟩
      exact (if_pos (show attr.fav = true from isValid)).symm
  | line attr lid =>
      refine ⟨rfl, rfl, fun isValid => ⟨fun _ => trivial, ?_⟩⟩
      exact (if_pos (show attr.fav = true from isValid)).symm
  | folder attr fid sub items =>
      refine ⟨rfl, rfl, fun isValid => ⟨fun sound => ?_, ?_⟩⟩
      · rw [FavItem.Sound] at sound
        change (FavItem.folder { fav := true } _ sub items).Sound
        rw [FavItem.Sound]
        exact fun _ => sound isValid
      · change (FavItem.folder { fav := true } _ sub items).total = _
        rw [FavItem.total_folder rfl, FavItem.total_folder (show attr.fav = true from isValid)]

theorem Counted.move {current : List Nat} {place : Place} {target : Fav} {item : FavItem}
    (counted : Counted state) (found : state.root.getAt current = some target)
    (here : state.itemAt place = some item) (isValid : item.valid = true)
    (notOnWay : ¬ (place.1 ++ [place.2]) <+: current)
    (fits : Fits target (FavState.moved item
      (favIncrease target.counts (item.setAttr { fav := true })).2)) :
    Counted
      (let increased := favIncrease target.counts (item.setAttr { fav := true })
      let added := state.put current
        { counts := increased.1, items := target.items ++ [FavState.moved item increased.2] }
        (state.number + 1)
      match added.root.getAt place.1 with
      | none => added
      | some source =>
          added.put place.1 (source.remove place.2 FavItem.emptied) (added.number - 1)) := by
  obtain ⟨increased, isIncreased⟩ : ∃ increased, increased =
      favIncrease target.counts (item.setAttr { fav := true }) := ⟨_, rfl⟩
  obtain ⟨newValid, newType, newRest⟩ := @moved_spec target.counts item
  rw [← isIncreased] at newValid newType newRest fits ⊢
  obtain ⟨newSound, newTotal⟩ := newRest isValid
  obtain ⟨source, foundSource, atSource⟩ := Option.bind_eq_some_iff.mp here
  have targetSound := counted.sound.getAt found
  have sourceSound := counted.sound.getAt foundSource
  have itemSound := allSound_iff.mp sourceSound.below item (List.mem_of_getElem? atSource)
  have sameType : (item.setAttr { fav := true }).type =
      (FavState.moved item increased.2).type := by
    rw [newType]
    cases item <;> rfl
  -- the tree with the item in both folders
  obtain ⟨new, isNew⟩ : ∃ new : Fav, new =
      { counts := increased.1, items := target.items ++ [FavState.moved item increased.2] } :=
    ⟨_, rfl⟩
  have sound : new.Sound := by
    have appended := append_sound targetSound
      (Nat.le_trans (totalItems_getAt found) counted.few) newValid (newSound itemSound) sameType
      fits
    rw [← isIncreased] at appended
    rw [isNew]
    exact appended
  have addedSound := counted.sound.putAt found sound
  have addedTotal := @totalItems_putAt state.root target new current found
  have newItems : totalItems new.items = totalItems target.items + item.total := by
    rw [isNew, totalItems_single, newTotal]
  have stillThere : ((state.root.putAt current new).getAt place.1).bind
      (fun fav => fav.items[place.2]?) = some item := by
    rw [isNew]
    exact itemAt_putAt notOnWay found here
  dsimp only
  rw [← isNew]
  obtain ⟨left, foundLeft, atLeft⟩ := Option.bind_eq_some_iff.mp stillThere
  change Counted (match (state.root.putAt current new).getAt place.1 with
    | none => _
    | some source => _)
  rw [foundLeft]
  dsimp only
  -- the item leaves its old folder
  have few := counted.few
  have itemFew : item.total ≤ totalItems state.root.items := by
    have part := totalItems_remove atSource FavItem.emptied
    have whole := totalItems_getAt foundSource
    omega
  have leftSound := addedSound.getAt foundLeft
  have leftFew := totalItems_getAt foundLeft
  have less := totalItems_remove atLeft FavItem.emptied
  have room := number_le_largest leftSound (by omega) item.type
  have removedTotal := @totalItems_putAt (state.root.putAt current new) left
    (left.remove place.2 FavItem.emptied) place.1 foundLeft
  have number := counted.number
  have bounded := counted.bounded
  refine ⟨addedSound.putAt foundLeft (leftSound.remove atLeft isValid room _), ?_, ?_,
    counted.stored⟩
  · change state.number + 1 - 1 = (totalItems (Fav.putAt place.1 (state.root.putAt current new)
      (left.remove place.2 FavItem.emptied)).items : Int)
    omega
  · change state.number + 1 - 1 ≤ maxFav
    omega

theorem counted_moveTagged {current : List Nat} {place : Place} (counted : Counted state)
    (fine : MoveFine current state place) :
    Counted (FavState.dosomethingTagged (FavState.addAndRemoveTag current) state place) := by
  unfold FavState.dosomethingTagged
  cases at' : state.itemAt place with
  | none => exact counted
  | some item =>
      dsimp only
      split
      · rename_i tagged
        unfold FavState.addAndRemoveTag
        split
        · exact counted.setTag _ _ _
        · rename_i notOnStack
          obtain ⟨notFull, onTarget⟩ := fine.resolve_left notOnStack item at' tagged
          cases found : state.root.getAt current with
          | none => exact counted
          | some target =>
              dsimp only
              rw [notFull, if_neg Bool.false_ne_true]
              have isValid := (Bool.and_eq_true_iff.mp tagged).1
              have notOnWay : ¬ (place.1 ++ [place.2]) <+: current := by
                intro onWay
                exact notOnStack (List.isPrefixOf_iff_prefix.mpr onWay)
              exact counted.move found at' isValid notOnWay (onTarget target found)
      · exact counted

end Move

/-! ### Rearranging, saving and loading -/

theorem realPlace_lt {items : List FavItem} {seen place : Nat}
    (found : Fav.realPlace items seen = some place) : place < items.length := by
  induction items generalizing seen place with
  | nil => cases found
  | cons item rest ih =>
      unfold Fav.realPlace at found
      split at found
      · split at found
        · cases found
          exact Nat.zero_lt_succ _
        · obtain ⟨later, isLater, rfl⟩ := Option.map_eq_some_iff.mp found
          exact Nat.succ_lt_succ (ih isLater)
      · obtain ⟨later, isLater, rfl⟩ := Option.map_eq_some_iff.mp found
        exact Nat.succ_lt_succ (ih isLater)

theorem moveInFolder_perm (fav : Fav) (src dst : Nat) :
    (fav.moveInFolder src dst).items.Perm fav.items ∧
      (fav.moveInFolder src dst).counts = fav.counts := by
  unfold Fav.moveInFolder
  dsimp only
  generalize (if fav.items.length ≤ src then (getDataNumber fav.counts).toNat else src) = source
  generalize (if fav.items.length ≤ dst then (getDataNumber fav.counts).toNat else dst) = target
  split
  · exact ⟨List.Perm.refl _, rfl⟩
  · split
    · rename_i from' to' isSrc isDst
      split
      · rename_i item here
        refine ⟨?_, rfl⟩
        obtain ⟨bound, rfl⟩ := List.getElem?_eq_some_iff.mp here
        have inside : to' ≤ (fav.items.eraseIdx from').length := by
          have low := realPlace_lt isDst
          rw [List.length_eraseIdx_of_lt bound]
          omega
        exact (List.perm_insertIdx _ _ inside).trans (List.getElem_cons_eraseIdx_perm bound)
      · exact ⟨List.Perm.refl _, rfl⟩
    · exact ⟨List.Perm.refl _, rfl⟩

section Rest

variable {state : FavState} {path : List Nat}

theorem counted_move {src dst : Nat} (counted : Counted state) :
    Counted (state.moveInCurrentFolder path src dst) := by
  unfold FavState.moveInCurrentFolder
  split
  · exact counted
  · rename_i fav found
    obtain ⟨perm, counts⟩ := moveInFolder_perm fav src dst
    have sound := (counted.sound.getAt found).perm perm
    have same : { fav with items := (fav.moveInFolder src dst).items } =
        fav.moveInFolder src dst := by
      rw [← counts]
    rw [same] at sound
    apply counted.put found sound
    · rw [totalItems_perm perm]
    · exact counted.bounded

theorem counted_rebuild (counted : Counted state) (path : List Nat) :
    Counted (state.rebuild path) := by
  unfold FavState.rebuild
  split
  · exact counted
  · rename_i fav found
    have few := Nat.le_trans (totalItems_getAt found) counted.few
    obtain ⟨sound, number, total, _clean⟩ := rebuildFav_sound (counted.sound.getAt found)
      (Nat.le_trans few (by decide)) state.number
    apply counted.put found sound
    · rw [number, total]
    · rw [number]
      exact counted.bounded

theorem counted_cleanup (counted : Counted state) :
    Counted state.favCleanup ∧ isNeedRebuildFav state.favCleanup.root.items = false := by
  unfold FavState.favCleanup
  split
  · refine ⟨counted_rebuild counted [], ?_⟩
    exact (rebuildFav_sound counted.sound (Nat.le_trans counted.few (by decide))
      state.number).2.2.2
  · rename_i clean
    exact ⟨counted, Bool.not_eq_true _ ▸ clean⟩

theorem counted_save (counted : Counted state) : Counted state.favSave := by
  obtain ⟨cleaned, clean⟩ := counted_cleanup counted
  unfold FavState.favSave
  dsimp only
  split
  · refine ⟨cleaned.sound, cleaned.number, cleaned.bounded, fun fields isFile => ?_⟩
    cases isFile
    refine ⟨state.favCleanup.root, rfl, cleaned.sound, clean, ?_⟩
    rw [← cleaned.number]
    exact cleaned.bounded
  · exact cleaned

theorem sound_empty : Fav.Sound {} := by
  refine ⟨⟨fun type => ?_, fun type _ => List.nodup_nil⟩, fun type notBoard => ?_, trivial⟩
  · cases type <;> rfl
  · cases type <;> decide

theorem counted_load (counted : Counted state) : Counted state.favLoad := by
  unfold FavState.favLoad
  cases isFile : state.file with
  | none =>
      refine ⟨sound_empty, rfl, show (0 : Int) ≤ maxFav by decide, fun fields other => ?_⟩
      cases other
  | some fields =>
      obtain ⟨fav, rfl, sound, clean, few⟩ := counted.stored fields isFile
      obtain ⟨read, result, readSound, total⟩ := readsBack sound clean (Nat.le_refl _) []
      rw [List.append_nil] at result
      dsimp only
      rw [result]
      refine ⟨readSound, ?_, few, fun fields other => ?_⟩
      · change (totalItems fav.items : Int) = totalItems read.items
        rw [total]
      · exact counted.stored fields (isFile ▸ other)

end Rest

/-! ### Runs -/

theorem counted_step {state : FavState} {op : FavOp} (counted : Counted state)
    (meets : Meets state op) : Counted (state.step op) := by
  cases op with
  | addBoard path bid => exact counted_addBoard counted meets
  | addLine path => exact counted_addLine counted meets
  | addFolder path => exact counted_addFolder counted meets
  | addAdmtag bid =>
      change Counted (state.favAddAdmtag bid)
      rw [FavState.favAddAdmtag, if_pos (show state.isMaxsize = true from meets)]
      exact counted
  | removeItem path type id => exact counted_removeItem counted meets
  | tag path type id tag => exact counted_tag counted
  | removeAllTagged path =>
      exact invariant_run (fun _state _place counted fine => counted_removeTagged counted fine)
        counted meets
  | addAllTagged path =>
      exact invariant_run (fun _state _place counted fine => counted_moveTagged counted fine)
        counted meets
  | removeAllTag => exact counted_removeAllTag counted
  | move path src dst => exact counted_move counted
  | cleanup => exact (counted_cleanup counted).1
  | rebuild path => exact counted_rebuild counted path
  | save => exact counted_save counted
  | reload => exact counted_load (counted_save counted)

/-- In every run from an empty tree whose operations find what they rely on, every folder
counts its favourites by type, the ids of its lines and of its folders are different, and
the global counter is the number of favourites of the whole tree and within its bound. -/
theorem counters_run (ops : List FavOp) (meets : StepsMeet FavState.step Meets {} ops) :
    let final := run FavState.step {} ops
    (∀ path fav, final.root.getAt path = some fav →
      (∀ type, fav.counts.number type = countOf type fav.items) ∧
      getDataNumber fav.counts = countValid fav.items ∧
      (idsOf .line fav.items).Nodup ∧ (idsOf .folder fav.items).Nodup) ∧
    final.number = totalItems final.root.items ∧ final.number ≤ maxFav := by
  intro final
  have start : Counted {} := ⟨sound_empty, rfl, by decide, nofun⟩
  have counted : Counted final :=
    invariant_run (fun _state _op counted meets => counted_step counted meets) start meets
  refine ⟨fun path fav found => ?_, counted.number, counted.bounded⟩
  have sound := counted.sound.getAt found
  exact ⟨sound.own.numbers, sound.own.dataNumber, sound.own.ids .line nofun,
    sound.own.ids .folder nofun⟩

def oneSession : List FavOp :=
  [.addLine [], .addFolder [], .addBoard [1] 5, .reload, .tag [1] .board 5 (fun _ => true),
    .addAllTagged [], .removeItem [] .folder 1]

theorem counters_run_oneSession :
    (run FavState.step {} oneSession).number = totalItems (run FavState.step {} oneSession).root.items ∧
      (run FavState.step {} oneSession).number = 2 :=
  ⟨(counters_run oneSession (by decide)).2.1, by decide⟩

def folderRemoved : FavState :=
  run FavState.step {} [.addFolder [], .addBoard [0] 1, .removeItem [] .folder 1, .cleanup]

def lineMoved : FavState :=
  run FavState.step {} [.addFolder [], .addLine [0], .addLine [],
    .tag [0] .line 1 (fun _ => true), .addAllTagged []]

/-- The board of the folder is counted for ever; a board that an administrator tags is
counted; the line keeps its id. -/
theorem counters_drift :
    (folderRemoved.number = 1 ∧ totalItems folderRemoved.root.items = 0) ∧
    ((FavState.step {} (.addAdmtag 1)).root.counts.nBoards = 1 ∧
      countOf .board (FavState.step {} (.addAdmtag 1)).root.items = 0) ∧
    idsOf .line lineMoved.root.items = [1, 1] := by
  decide

end Pttbbs.Mbbsd.Favourites
