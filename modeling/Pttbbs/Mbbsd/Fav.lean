/-
The favourites of a user.

A folder holds boards, lines and folders, and counts them by hand.  An item that
is removed stays in its folder without the flag that makes it a favourite until
the folder is rebuilt.  The number of items in all folders is kept in one global
counter, which bounds the tree.

The user stands in one folder; its place is given by the places of the folders
on the way to it, which are the folders on the stack.  `DataTail` is the length
of the list of items.
-/

import Mathlib.Data.List.Basic

namespace Pttbbs.Mbbsd.Favourites

def favMaxDepth : Nat := 5
def maxFav : Int := 1024
def maxLine : Int := 64
def maxFolder : Int := 64

def toChar (number : Int) : Int := (number + 128) % 256 - 128

def toShort (number : Int) : Int := (number + 32768) % 65536 - 32768

structure Attr where
  fav : Bool := false
  tag : Bool := false
  unread : Bool := false
  admTag : Bool := false
deriving DecidableEq, Repr

structure Counts where
  nBoards : Int := 0
  nLines : Int := 0
  nFolders : Int := 0
  lineID : Int := 0
  folderID : Int := 0
deriving DecidableEq, Repr

inductive ItemType where
  | board
  | line
  | folder
deriving DecidableEq, Repr

/-- A `fav_type_t`; a folder with its `fav_t`. -/
inductive FavItem where
  | board (attr : Attr) (bid : Int)
  | line (attr : Attr) (lid : Int)
  | folder (attr : Attr) (fid : Int) (counts : Counts) (items : List FavItem)

structure Fav where
  counts : Counts := {}
  items : List FavItem := []

namespace FavItem

def type : FavItem → ItemType
  | .board _ _ => .board
  | .line _ _ => .line
  | .folder _ _ _ _ => .folder

def attr : FavItem → Attr
  | .board attr _ => attr
  | .line attr _ => attr
  | .folder attr _ _ _ => attr

def id : FavItem → Int
  | .board _ bid => bid
  | .line _ lid => lid
  | .folder _ fid _ _ => fid

def setAttr (attr : Attr) : FavItem → FavItem
  | .board _ bid => .board attr bid
  | .line _ lid => .line attr lid
  | .folder _ fid counts items => .folder attr fid counts items

def valid (item : FavItem) : Bool := item.attr.fav

def emptied : FavItem → FavItem
  | .folder attr fid _ _ => .folder attr fid {} []
  | item => item

end FavItem

def getDataNumber (counts : Counts) : Int := counts.nBoards + counts.nLines + counts.nFolders

def favDecrease (counts : Counts) : ItemType → Counts
  | .board => { counts with nBoards := toShort (counts.nBoards - 1) }
  | .line => { counts with nLines := toChar (counts.nLines - 1) }
  | .folder => { counts with nFolders := toChar (counts.nFolders - 1) }

/-- The counters of `fav_increase`, and the item with its new id. -/
def favIncrease (counts : Counts) : FavItem → Counts × FavItem
  | .board attr bid => ({ counts with nBoards := toShort (counts.nBoards + 1) }, .board attr bid)
  | .line attr _ =>
      let lid := toChar (counts.lineID + 1)
      ({ counts with nLines := toChar (counts.nLines + 1), lineID := lid }, .line attr lid)
  | .folder attr _ sub items =>
      let fid := toChar (counts.folderID + 1)
      ({ counts with nFolders := toChar (counts.nFolders + 1), folderID := fid },
        .folder attr fid sub items)

namespace Fav

/-- The folder at a place; every folder on the way is a favourite. -/
def getAt : List Nat → Fav → Option Fav
  | [], fav => some fav
  | index :: path, fav =>
      match fav.items[index]? with
      | some (.folder attr _ counts items) =>
          if attr.fav then getAt path { counts := counts, items := items } else none
      | _ => none

def putAt : List Nat → Fav → Fav → Fav
  | [], _, new => new
  | index :: path, fav, new =>
      match fav.items[index]? with
      | some (.folder attr fid counts items) =>
          let sub := putAt path { counts := counts, items := items } new
          { fav with items := fav.items.set index (.folder attr fid sub.counts sub.items) }
      | _ => fav

/-- `fav_preappend`: the item gets a new id. -/
def preappend (fav : Fav) (item : FavItem) : Fav :=
  let increased := favIncrease fav.counts item
  { counts := increased.1, items := fav.items ++ [increased.2] }

/-- `fav_remove`; `gone` is what is left of the item. -/
def remove (fav : Fav) (index : Nat) (gone : FavItem → FavItem) : Fav :=
  match fav.items[index]? with
  | none => fav
  | some item =>
      { counts := favDecrease fav.counts item.type
        items := fav.items.set index ((gone item).setAttr {}) }

/-- `get_fav_item`: the place of the first favourite with a type and an id. -/
def find (fav : Fav) (type : ItemType) (id : Int) : Option Nat :=
  fav.items.findIdx? fun item => item.valid && item.type = type && item.id = id

/-- The place of a favourite, counted without the items that have been removed. -/
def realPlace (items : List FavItem) (seen : Nat) : Option Nat :=
  match items, seen with
  | [], _ => none
  | item :: rest, seen =>
      if item.valid then
        match seen with
        | 0 => some 0
        | seen + 1 => (realPlace rest seen).map (· + 1)
      else (realPlace rest seen).map (· + 1)

def moveInFolder (fav : Fav) (src dst : Nat) : Fav :=
  let count := (getDataNumber fav.counts).toNat
  let src := if fav.items.length ≤ src then count else src
  let dst := if fav.items.length ≤ dst then count else dst
  if src = dst then fav
  else
    match realPlace fav.items src, realPlace fav.items dst with
    | some src, some dst =>
        match fav.items[src]? with
        | some item => { fav with items := (fav.items.eraseIdx src).insertIdx dst item }
        | none => fav
    | _, _ => fav

end Fav

/-! ### Rebuilding -/

mutual

def FavItem.rebuild : FavItem → Int → FavItem × Int
  | .board attr bid, number => (.board attr bid, number)
  | .line attr lid, number => (.line attr lid, number)
  | .folder attr fid counts items, number =>
      let rebuilt := rebuildItems items {} (number - getDataNumber counts)
      (.folder attr fid rebuilt.2.1 rebuilt.1, rebuilt.2.2)

def rebuildItems : List FavItem → Counts → Int → List FavItem × Counts × Int
  | [], counts, number => ([], counts, number)
  | item :: rest, counts, number =>
      if item.valid then
        let rebuilt := item.rebuild number
        let increased := favIncrease counts rebuilt.1
        let left := rebuildItems rest increased.1 (rebuilt.2 + 1)
        (increased.2 :: left.1, left.2.1, left.2.2)
      else rebuildItems rest counts number

end

mutual

def FavItem.needsRebuild : FavItem → Bool
  | .board attr _ => !attr.fav
  | .line attr _ => !attr.fav
  | .folder attr _ _ items => !attr.fav || isNeedRebuildFav items

def isNeedRebuildFav : List FavItem → Bool
  | [] => false
  | item :: rest => item.needsRebuild || isNeedRebuildFav rest

end

def rebuildFav (fav : Fav) (number : Int) : Fav × Int :=
  let rebuilt := rebuildItems fav.items {} (number - getDataNumber fav.counts)
  ({ counts := rebuilt.2.1, items := rebuilt.1 }, rebuilt.2.2)

/-! ### The file -/

inductive Field where
  | counts (nBoards nLines nFolders : Int)
  | board (attr : Attr) (bid : Int)
  | line (attr : Attr) (lid : Int)
  | folder (attr : Attr) (fid : Int)
deriving DecidableEq, Repr

def FavItem.field : FavItem → Field
  | .board attr bid => .board attr bid
  | .line attr lid => .line attr lid
  | .folder attr fid _ _ => .folder attr fid

mutual

def FavItem.writeSub : FavItem → List Field
  | .folder _ _ counts items =>
      .counts counts.nBoards counts.nLines counts.nFolders ::
        ((items.take (getDataNumber counts).toNat).map FavItem.field ++
          writeSubs items (getDataNumber counts).toNat)
  | _ => []

/-- The second loop of `write_favrec`, over the first items. -/
def writeSubs : List FavItem → Nat → List Field
  | [], _ => []
  | _ :: _, 0 => []
  | item :: rest, count + 1 => item.writeSub ++ writeSubs rest count

end

def writeFavrec (fav : Fav) : List Field :=
  .counts fav.counts.nBoards fav.counts.nLines fav.counts.nFolders ::
    ((fav.items.take (getDataNumber fav.counts).toNat).map FavItem.field ++
      writeSubs fav.items (getDataNumber fav.counts).toNat)

/-- The first loop of `read_favrec`: items whose folders have not been read. -/
def readItems : Nat → List Field → Option (List FavItem × List Field)
  | 0, fields => some ([], fields)
  | count + 1, .board attr bid :: fields =>
      (readItems count fields).map fun (items, rest) => (.board attr bid :: items, rest)
  | count + 1, .line attr lid :: fields =>
      (readItems count fields).map fun (items, rest) => (.line attr lid :: items, rest)
  | count + 1, .folder attr fid :: fields =>
      (readItems count fields).map fun (items, rest) => (.folder attr fid {} [] :: items, rest)
  | _ + 1, _ => none

/-- The second loop of `read_favrec`, with the ids given out so far. -/
def readSubs (readFav : List Field → Option (Fav × Int × List Field)) :
    List FavItem → Counts → List Field → Option (List FavItem × Counts × Int × List Field)
  | [], counts, fields => some ([], counts, 0, fields)
  | .folder attr _ _ _ :: rest, counts, fields => do
      let (sub, number, fields) ← readFav fields
      let fid := toChar (counts.folderID + 1)
      let (items, counts, more, fields) ← readSubs readFav rest { counts with folderID := fid } fields
      some (.folder attr fid sub.counts sub.items :: items, counts, number + more, fields)
  | .line attr _ :: rest, counts, fields => do
      let lid := toChar (counts.lineID + 1)
      let (items, counts, more, fields) ← readSubs readFav rest { counts with lineID := lid } fields
      some (.line attr lid :: items, counts, more, fields)
  | .board attr bid :: rest, counts, fields => do
      let (items, counts, more, fields) ← readSubs readFav rest counts fields
      some (.board attr bid :: items, counts, more, fields)

/-- `read_favrec`: the folder, what it adds to `fav_number`, and the rest of the file.
Every folder takes a field, so the length of the file is enough fuel. -/
def readFavrec : Nat → List Field → Option (Fav × Int × List Field)
  | 0, _ => none
  | fuel + 1, .counts nBoards nLines nFolders :: fields => do
      let counts : Counts := { nBoards := nBoards, nLines := nLines, nFolders := nFolders }
      let (items, fields) ← readItems (getDataNumber counts).toNat fields
      let (items, counts, more, fields) ← readSubs (readFavrec fuel) items counts fields
      some ({ counts := counts, items := items }, getDataNumber counts + more, fields)
  | _ + 1, _ => none

/-! ### The state and the operations -/

structure FavState where
  root : Fav := {}
  /-- `fav_number` -/
  number : Int := 0
  dirty : Bool := false
  /-- The file that `fav_save` wrote last. -/
  file : Option (List Field) := none

namespace FavState

def put (state : FavState) (path : List Nat) (fav : Fav) (number : Int) : FavState :=
  { state with root := state.root.putAt path fav, number := number, dirty := true }

def isMaxsize (state : FavState) : Bool := maxFav ≤ state.number

def favAddLine (path : List Nat) (state : FavState) : FavState :=
  match state.root.getAt path with
  | none => state
  | some fav =>
      if state.isMaxsize || maxLine ≤ fav.counts.nLines then state
      else state.put path (fav.preappend (.line { fav := true } 0)) (state.number + 1)

def favAddFolder (path : List Nat) (state : FavState) : FavState :=
  match state.root.getAt path with
  | none => state
  | some fav =>
      if state.isMaxsize || favMaxDepth ≤ path.length + 1 || maxFolder ≤ fav.counts.nFolders then
        state
      else state.put path (fav.preappend (.folder { fav := true } 0 {} [])) (state.number + 1)

def favAddBoard (path : List Nat) (bid : Int) (state : FavState) : FavState :=
  match state.root.getAt path with
  | none => state
  | some fav =>
      if (fav.find .board bid).isSome || state.isMaxsize then state
      else state.put path (fav.preappend (.board { fav := true } bid)) (state.number + 1)

/-- A board that an administrator has tagged is kept at the root without being a favourite. -/
def favAddAdmtag (bid : Int) (state : FavState) : FavState :=
  if state.isMaxsize then state
  else state.put [] (state.root.preappend (.board { admTag := true } bid)) (state.number + 1)

def favRemoveItem (path : List Nat) (type : ItemType) (id : Int) (state : FavState) : FavState :=
  match state.root.getAt path with
  | none => state
  | some fav =>
      match fav.find type id with
      | none => state
      | some index => state.put path (fav.remove index fun item => item) (state.number - 1)

def setTag (path : List Nat) (index : Nat) (tag : Bool → Bool) (state : FavState) : FavState :=
  match state.root.getAt path with
  | none => state
  | some fav =>
      match fav.items[index]? with
      | none => state
      | some item =>
          let attr := { item.attr with tag := tag item.attr.tag }
          state.put path { fav with items := fav.items.set index (item.setAttr attr) } state.number

def favTag (path : List Nat) (type : ItemType) (id : Int) (tag : Bool → Bool)
    (state : FavState) : FavState :=
  match state.root.getAt path with
  | none => state
  | some fav =>
      match fav.find type id with
      | none => state
      | some index => state.setTag path index tag

def moveInCurrentFolder (path : List Nat) (src dst : Nat) (state : FavState) : FavState :=
  match state.root.getAt path with
  | none => state
  | some fav => state.put path (fav.moveInFolder src dst) state.number

end FavState

/-! ### Tagged items -/

abbrev Place : Type := List Nat × Nat

def ownPlaces (path : List Nat) (items : List FavItem) : List Place :=
  (List.range items.length).map fun index => (path, index)

mutual

def FavItem.placesBelow : FavItem → List Nat → List Place
  | .folder attr _ _ items, path =>
      if attr.fav then subPlaces items path 0 ++ ownPlaces path items else []
  | _, _ => []

def subPlaces : List FavItem → List Nat → Nat → List Place
  | [], _, _ => []
  | item :: rest, path, index =>
      item.placesBelow (path ++ [index]) ++ subPlaces rest path (index + 1)

end

/-- All places in the order of `fav_do_recursively`: the folders below come first. -/
def allPlaces (root : Fav) : List Place := subPlaces root.items [] 0 ++ ownPlaces [] root.items

namespace FavState

def itemAt (state : FavState) (place : Place) : Option FavItem :=
  (state.root.getAt place.1).bind fun fav => fav.items[place.2]?

def dosomethingTagged (act : FavState → Place → FavItem → FavState) (state : FavState)
    (place : Place) : FavState :=
  match state.itemAt place with
  | none => state
  | some item => if item.valid && item.attr.tag then act state place item else state

/-- The folder at a place is on the stack of a user who stands in another. -/
def onStack (current : List Nat) (place : Place) : Bool :=
  (place.1 ++ [place.2]).isPrefixOf current

def removeTaggedItem (current : List Nat) (state : FavState) (place : Place) (_item : FavItem) :
    FavState :=
  if onStack current place then state.setTag place.1 place.2 fun _ => false
  else
    match state.root.getAt place.1 with
    | none => state
    | some fav =>
        state.put place.1 (fav.remove place.2 fun item => item) (state.number - 1)

/-- The item that `add_and_remove_tag` leaves in the folder it goes to: a line keeps its
old id. -/
def moved (item increased : FavItem) : FavItem :=
  match item with
  | .line _ lid => .line { fav := true } lid
  | _ => increased

/-- `add_and_remove_tag`; without room for one more item the code stops at a null pointer. -/
def addAndRemoveTag (current : List Nat) (state : FavState) (place : Place) (item : FavItem) :
    FavState :=
  if onStack current place then state.setTag place.1 place.2 fun _ => false
  else
    match state.root.getAt current with
    | none => state
    | some target =>
        if state.isMaxsize then state
        else
          let increased := favIncrease target.counts (item.setAttr { fav := true })
          let added := state.put current
            { counts := increased.1, items := target.items ++ [moved item increased.2] }
            (state.number + 1)
          match added.root.getAt place.1 with
          | none => added
          | some source =>
              added.put place.1 (source.remove place.2 FavItem.emptied) (added.number - 1)

def favRemoveAllTaggedItem (current : List Nat) (state : FavState) : FavState :=
  (allPlaces state.root).foldl (dosomethingTagged (removeTaggedItem current)) state

/-- The places that `fav_add_all_tagged_item` goes through: not those of the current folder. -/
def otherPlaces (current : List Nat) (root : Fav) : List Place :=
  (allPlaces root).filter fun place => place.1 ≠ current

/-- `fav_add_all_tagged_item`: the tagged items of the other folders move into the current
one. -/
def favAddAllTaggedItem (current : List Nat) (state : FavState) : FavState :=
  (otherPlaces current state.root).foldl (dosomethingTagged (addAndRemoveTag current)) state

def favRemoveAllTag (state : FavState) : FavState :=
  (allPlaces state.root).foldl
    (dosomethingTagged fun state place _ => state.setTag place.1 place.2 fun _ => false) state

def rebuild (path : List Nat) (state : FavState) : FavState :=
  match state.root.getAt path with
  | none => state
  | some fav =>
      let rebuilt := rebuildFav fav state.number
      state.put path rebuilt.1 rebuilt.2

def favCleanup (state : FavState) : FavState :=
  if isNeedRebuildFav state.root.items then state.rebuild [] else state

def favSave (state : FavState) : FavState :=
  let clean := state.favCleanup
  if clean.dirty then { clean with file := some (writeFavrec clean.root) } else clean

/-- `fav_load`; a user without a file begins with an empty folder. -/
def favLoad (state : FavState) : FavState :=
  match state.file with
  | none => { state with root := {}, number := 0 }
  | some fields =>
      match readFavrec fields.length fields with
      | some (fav, number, _) => { state with root := fav, number := number, dirty := false }
      | none => { state with root := {}, number := 0, dirty := false }

end FavState

end Pttbbs.Mbbsd.Favourites
