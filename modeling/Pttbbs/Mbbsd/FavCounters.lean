/-
The counters of the favourites are right.

One lemma for what every operation does to one folder, then the operations on
the tree, and from them whole runs.  Four things go wrong: a board tagged by an
administrator is counted without being a favourite, a folder is removed without
taking the items below it off the global counter, the ids and the counters of
lines and folders are bytes, and a line keeps its id when it moves to another
folder.
-/

import Pttbbs.Lib.Runs
import Pttbbs.Mbbsd.FavTree

namespace Pttbbs.Mbbsd.Favourites

open Pttbbs.Lib

/-! ### Counting one item more or less -/

def Stepped (counts after : Counts) (type : ItemType) (change : Int) : Prop :=
  ∀ other, after.number other = counts.number other + if type = other then change else 0

theorem toChar_of_range {number : Int} (low : -128 ≤ number) (high : number ≤ 127) :
    toChar number = number := by
  unfold toChar
  omega

theorem toShort_of_range {number : Int} (low : -32768 ≤ number) (high : number ≤ 32767) :
    toShort number = number := by
  unfold toShort
  omega

def largest : ItemType → Int
  | .board => 32767
  | .line => 127
  | .folder => 127

theorem Matches.natural {counts : Counts} {items : List FavItem} (right : Matches counts items)
    (type : ItemType) : 0 ≤ counts.number type := by
  rw [right.numbers]
  exact Int.natCast_nonneg _

theorem favIncrease_stepped {counts : Counts} {item : FavItem}
    (natural : 0 ≤ counts.number item.type) (room : counts.number item.type < largest item.type) :
    Stepped counts (favIncrease counts item).1 item.type 1 := by
  intro other
  cases item with
  | board attr bid =>
      have kept : toShort (counts.nBoards + 1) = counts.nBoards + 1 :=
        toShort_of_range (by change 0 ≤ counts.nBoards at natural; omega) (Int.add_one_le_of_lt room)
      cases other with
      | board => exact kept
      | line => exact (Int.add_zero _).symm
      | folder => exact (Int.add_zero _).symm
  | line attr lid =>
      have kept : toChar (counts.nLines + 1) = counts.nLines + 1 :=
        toChar_of_range (by change 0 ≤ counts.nLines at natural; omega) (Int.add_one_le_of_lt room)
      cases other with
      | board => exact (Int.add_zero _).symm
      | line => exact kept
      | folder => exact (Int.add_zero _).symm
  | folder attr fid sub items =>
      have kept : toChar (counts.nFolders + 1) = counts.nFolders + 1 :=
        toChar_of_range (by change 0 ≤ counts.nFolders at natural; omega)
          (Int.add_one_le_of_lt room)
      cases other with
      | board => exact (Int.add_zero _).symm
      | line => exact (Int.add_zero _).symm
      | folder => exact kept

theorem favDecrease_stepped {counts : Counts} {type : ItemType}
    (some' : 1 ≤ counts.number type) (room : counts.number type ≤ largest type) :
    Stepped counts (favDecrease counts type) type (-1) := by
  intro other
  cases type with
  | board =>
      change 1 ≤ counts.nBoards at some'
      change counts.nBoards ≤ 32767 at room
      have kept : toShort (counts.nBoards - 1) = counts.nBoards - 1 :=
        toShort_of_range (by omega) (by omega)
      cases other with
      | board => exact kept
      | line => exact (Int.add_zero _).symm
      | folder => exact (Int.add_zero _).symm
  | line =>
      change 1 ≤ counts.nLines at some'
      change counts.nLines ≤ 127 at room
      have kept : toChar (counts.nLines - 1) = counts.nLines - 1 :=
        toChar_of_range (by omega) (by omega)
      cases other with
      | board => exact (Int.add_zero _).symm
      | line => exact kept
      | folder => exact (Int.add_zero _).symm
  | folder =>
      change 1 ≤ counts.nFolders at some'
      change counts.nFolders ≤ 127 at room
      have kept : toChar (counts.nFolders - 1) = counts.nFolders - 1 :=
        toChar_of_range (by omega) (by omega)
      cases other with
      | board => exact (Int.add_zero _).symm
      | line => exact (Int.add_zero _).symm
      | folder => exact kept

theorem countOf_set (type : ItemType) {items : List FavItem} {index : Nat} {item : FavItem}
    (here : items[index]? = some item) (new : FavItem) :
    countOf type (items.set index new) + (if item.isA type then 1 else 0) =
      countOf type items + (if new.isA type then 1 else 0) := by
  induction items generalizing index with
  | nil => cases here
  | cons first rest ih =>
      cases index with
      | zero =>
          cases here
          rw [List.set_cons_zero]
          simp only [countOf, List.countP_cons]
          omega
      | succ index =>
          have later := ih here
          rw [List.set_cons_succ]
          simp only [countOf, List.countP_cons] at later ⊢
          omega

theorem idsOf_set_sublist (type : ItemType) (items : List FavItem) (index : Nat) {new : FavItem}
    (invalid : new.valid = false) : (idsOf type (items.set index new)).Sublist (idsOf type items) := by
  have isNot : new.isA type = false := by
    rw [FavItem.isA, invalid, Bool.false_and]
  induction items generalizing index with
  | nil => exact List.Sublist.refl _
  | cons first rest ih =>
      cases index with
      | zero =>
          rw [List.set_cons_zero, idsOf, List.filter_cons, isNot, if_neg Bool.false_ne_true]
          exact ((List.sublist_cons_self first rest).filter _).map _
      | succ index =>
          rw [List.set_cons_succ]
          have later := ih index
          unfold idsOf at later ⊢
          rw [List.filter_cons, List.filter_cons]
          split
          · exact later.cons_cons _
          · exact later

/-! ### One folder -/

section Folder

variable {fav : Fav} {item : FavItem} {index : Nat}

theorem isA_iff {type : ItemType} (isValid : item.valid = true) :
    item.isA type = decide (item.type = type) := by
  rw [FavItem.isA, isValid, Bool.true_and]

theorem countOf_cons_of_valid (rest : List FavItem) (isValid : item.valid = true)
    (type : ItemType) :
    countOf type (item :: rest) = countOf type rest + if item.type = type then 1 else 0 := by
  rw [countOf, List.countP_cons, isA_iff isValid]
  simp only [decide_eq_true_eq]
  rfl

theorem countOf_cons_of_invalid (rest : List FavItem) (invalid : item.valid = false)
    (type : ItemType) : countOf type (item :: rest) = countOf type rest := by
  rw [countOf, List.countP_cons, FavItem.isA, invalid, Bool.false_and, if_neg Bool.false_ne_true]
  rfl

theorem total_of_invalid (invalid : item.valid = false) : item.total = 0 := by
  cases item with
  | board attr bid => exact if_neg (by rw [show attr.fav = false from invalid]; exact nofun)
  | line attr lid => exact if_neg (by rw [show attr.fav = false from invalid]; exact nofun)
  | folder attr fid counts items =>
      rw [FavItem.total, show attr.fav = false from invalid, if_neg Bool.false_ne_true]

theorem Fav.Sound.append (sound : fav.Sound) {counts : Counts}
    (stepped : Stepped fav.counts counts item.type 1)
    (room : item.type ≠ .board → fav.counts.number item.type < 127)
    (isValid : item.valid = true) (itemSound : item.Sound)
    (fresh : item.type ≠ .board → item.id ∉ idsOf item.type fav.items) :
    Fav.Sound { counts := counts, items := fav.items ++ [item] } := by
  have one : ∀ type, countOf type [item] = if item.type = type then 1 else 0 := by
    intro type
    rw [countOf, List.countP_singleton, isA_iff isValid]
    simp only [decide_eq_true_eq]
  have ids : ∀ type, idsOf type [item] = if item.type = type then [item.id] else [] := by
    intro type
    rw [idsOf, List.filter_singleton, isA_iff isValid]
    by_cases same : item.type = type
    · simp [same]
    · simp [same]
  refine ⟨⟨?_, ?_⟩, ?_, sound.below.append (allSound_iff.mpr ?_)⟩
  · intro type
    rw [stepped, sound.own.numbers, countOf_append, one]
    by_cases same : item.type = type
    · rw [if_pos same, if_pos same]
      omega
    · rw [if_neg same, if_neg same]
      omega
  · intro type notBoard
    have old := sound.own.ids type notBoard
    rw [idsOf_append, ids]
    by_cases same : item.type = type
    · subst same
      rw [if_pos rfl, List.nodup_append]
      refine ⟨old, List.nodup_singleton _, ?_⟩
      intro id member other isItem equal
      rw [List.mem_singleton.mp isItem] at equal
      exact fresh notBoard (equal ▸ member)
    · rw [if_neg same, List.append_nil]
      exact old
  · intro type notBoard
    have narrow := sound.narrow type notBoard
    change counts.number type ≤ 127
    rw [stepped]
    by_cases same : item.type = type
    · subst same
      have below := room notBoard
      rw [if_pos rfl]
      omega
    · rw [if_neg same]
      omega
  · intro other member
    rw [List.mem_singleton.mp member]
    exact itemSound

theorem Fav.Sound.remove (sound : fav.Sound) (here : fav.items[index]? = some item)
    (isValid : item.valid = true) (room : fav.counts.number item.type ≤ largest item.type)
    (gone : FavItem → FavItem) : (fav.remove index gone).Sound := by
  have invalid : ((gone item).setAttr {}).valid = false := by
    cases gone item <;> rfl
  have goneSound : ((gone item).setAttr {}).Sound := by
    cases gone item with
    | board attr bid => exact trivial
    | line attr lid => exact trivial
    | folder attr fid counts items =>
        rw [FavItem.setAttr, FavItem.Sound]
        intro isFav
        cases isFav
  have less : ∀ type, countOf type (fav.items.set index ((gone item).setAttr {})) +
      (if item.type = type then 1 else 0) = countOf type fav.items := by
    intro type
    have set := countOf_set type here ((gone item).setAttr {})
    rw [isA_iff isValid, FavItem.isA, invalid, Bool.false_and] at set
    simpa using set
  have some' : 1 ≤ fav.counts.number item.type := by
    have own := less item.type
    rw [if_pos rfl] at own
    rw [sound.own.numbers]
    omega
  have stepped := favDecrease_stepped some' room
  rw [Fav.remove, here]
  refine ⟨⟨?_, ?_⟩, ?_, sound.below.set goneSound index⟩
  · intro type
    have fewer := less type
    change _ = ((countOf type (fav.items.set index ((gone item).setAttr {})) : Nat) : Int)
    rw [stepped, sound.own.numbers]
    by_cases same : item.type = type
    · rw [if_pos same] at fewer ⊢
      omega
    · rw [if_neg same] at fewer ⊢
      omega
  · intro type notBoard
    exact (sound.own.ids type notBoard).sublist (idsOf_set_sublist type _ index invalid)
  · intro type notBoard
    have narrow := sound.narrow type notBoard
    change (favDecrease fav.counts item.type).number type ≤ 127
    rw [stepped]
    by_cases same : item.type = type
    · rw [if_pos same]
      omega
    · rw [if_neg same]
      omega

theorem Fav.Sound.congr (sound : fav.Sound) {items : List FavItem}
    (same : items.map FavItem.seen = fav.items.map FavItem.seen) (below : AllSound items) :
    Fav.Sound { fav with items := items } :=
  ⟨sound.own.congr same, sound.narrow, below⟩

theorem Fav.Sound.perm (sound : fav.Sound) {items : List FavItem}
    (perm : items.Perm fav.items) : Fav.Sound { fav with items := items } := by
  refine ⟨⟨?_, ?_⟩, sound.narrow, ?_⟩
  · intro type
    rw [countOf, perm.countP_eq]
    exact sound.own.numbers type
  · intro type notBoard
    exact (((perm.filter _).map FavItem.id).nodup_iff).mpr (sound.own.ids type notBoard)
  · rw [allSound_iff]
    intro item member
    exact allSound_iff.mp sound.below item (perm.mem_iff.mp member)

end Folder

/-! ### Rebuilding -/

def countValid (items : List FavItem) : Nat := items.countP FavItem.valid

theorem countValid_eq (items : List FavItem) :
    countValid items = countOf .board items + countOf .line items + countOf .folder items := by
  induction items with
  | nil => rfl
  | cons item rest ih =>
      simp only [countValid, countOf, List.countP_cons] at ih ⊢
      rw [ih]
      cases isValid : item.valid with
      | false =>
          simp only [FavItem.isA, isValid, Bool.false_and, Bool.false_eq_true, if_false]
          omega
      | true =>
          simp only [isA_iff isValid]
          cases item with
          | board attr bid => simp [FavItem.type]; omega
          | line attr lid => simp [FavItem.type]; omega
          | folder attr fid counts items => simp [FavItem.type]; omega

theorem Matches.dataNumber {counts : Counts} {items : List FavItem}
    (right : Matches counts items) : getDataNumber counts = countValid items := by
  have boards := right.numbers .board
  have lines := right.numbers .line
  have folders := right.numbers .folder
  change counts.nBoards = _ at boards
  change counts.nLines = _ at lines
  change counts.nFolders = _ at folders
  rw [getDataNumber, countValid_eq]
  omega

theorem countValid_le_total (items : List FavItem) : countValid items ≤ totalItems items := by
  induction items with
  | nil => exact Nat.le_refl 0
  | cons item rest ih =>
      have one : (if item.valid = true then 1 else 0) ≤ item.total := by
        cases item with
        | board attr bid => exact Nat.le_refl _
        | line attr lid => exact Nat.le_refl _
        | folder attr fid counts items =>
            rw [FavItem.total]
            change (if attr.fav = true then 1 else 0) ≤ _
            split <;> omega
      rw [totalItems, countValid, List.countP_cons]
      unfold countValid at ih
      omega

theorem countOf_le_countValid (type : ItemType) (items : List FavItem) :
    countOf type items ≤ countValid items := by
  apply List.countP_mono_left
  intro item _member isA
  exact (Bool.and_eq_true_iff.mp isA).1

structure Ready (counts : Counts) (items : List FavItem) : Prop where
  natural : ∀ type, 0 ≤ counts.number type
  room : ∀ type, counts.number type + countOf type items ≤ largest type
  lineID : counts.lineID = counts.nLines
  folderID : counts.folderID = counts.nFolders

structure Rebuilt (items : List FavItem) (counts : Counts) (number : Int)
    (result : List FavItem × Counts × Int) : Prop where
  numbers : ∀ type, result.2.1.number type = counts.number type + countOf type items
  counted : ∀ type, countOf type result.1 = countOf type items
  ids : ∀ type, type ≠ .board → (idsOf type result.1).Nodup ∧
    ∀ id ∈ idsOf type result.1, counts.number type < id
  sound : AllSound result.1
  clean : isNeedRebuildFav result.1 = false
  total : totalItems result.1 = totalItems items
  number : result.2.2 = number + countValid items

structure RebuildOk (item : FavItem) : Prop where
  same : ∀ number, (item.rebuild number).1.valid = item.valid ∧
    (item.rebuild number).1.type = item.type
  sound : ∀ number, (item.rebuild number).1.Sound
  clean : ∀ number, (item.rebuild number).1.needsRebuild = false
  total : ∀ number, (item.rebuild number).1.total = item.total
  number : ∀ number, (item.rebuild number).2 = number

section Increase

variable {counts : Counts} {item : FavItem} {rest : List FavItem}

theorem favIncrease_type (counts : Counts) (item : FavItem) :
    (favIncrease counts item).2.type = item.type := by
  cases item <;> rfl

theorem favIncrease_valid (counts : Counts) (item : FavItem) :
    (favIncrease counts item).2.valid = item.valid := by
  cases item <;> rfl

theorem favIncrease_total (counts : Counts) (item : FavItem) :
    (favIncrease counts item).2.total = item.total := by
  cases item <;> rfl

theorem favIncrease_sound (counts : Counts) (item : FavItem) :
    (favIncrease counts item).2.Sound ↔ item.Sound := by
  cases item <;> rfl

theorem favIncrease_needsRebuild (counts : Counts) (item : FavItem) :
    (favIncrease counts item).2.needsRebuild = item.needsRebuild := by
  cases item <;> rfl

theorem Ready.step (ready : Ready counts (item :: rest)) {rebuilt : FavItem}
    (isValid : item.valid = true) (same : rebuilt.type = item.type) :
    Stepped counts (favIncrease counts rebuilt).1 item.type 1 ∧
      Ready (favIncrease counts rebuilt).1 rest ∧
      (item.type ≠ .board → (favIncrease counts rebuilt).2.id = counts.number item.type + 1) := by
  have more := fun type => countOf_cons_of_valid rest isValid type
  have room := ready.room item.type
  rw [more, if_pos rfl] at room
  have stepped : Stepped counts (favIncrease counts rebuilt).1 item.type 1 := by
    rw [← same] at room ⊢
    exact favIncrease_stepped (ready.natural _) (by omega)
  refine ⟨stepped, ⟨?_, ?_, ?_, ?_⟩, ?_⟩
  · intro type
    have natural := ready.natural type
    rw [stepped]
    split <;> omega
  · intro type
    have fits := ready.room type
    rw [more] at fits
    rw [stepped]
    split <;> rename_i which
    · rw [if_pos which] at fits
      omega
    · rw [if_neg which] at fits
      omega
  · cases rebuilt with
    | board attr bid => exact ready.lineID
    | line attr lid =>
        change toChar (counts.lineID + 1) = toChar (counts.nLines + 1)
        rw [ready.lineID]
    | folder attr fid sub items => exact ready.lineID
  · cases rebuilt with
    | board attr bid => exact ready.folderID
    | line attr lid => exact ready.folderID
    | folder attr fid sub items =>
        change toChar (counts.folderID + 1) = toChar (counts.nFolders + 1)
        rw [ready.folderID]
  · intro notBoard
    have natural := ready.natural item.type
    rw [← same] at notBoard natural room ⊢
    cases rebuilt with
    | board attr bid => exact absurd rfl notBoard
    | line attr lid =>
        change toChar (counts.lineID + 1) = counts.nLines + 1
        change counts.nLines + _ ≤ 127 at room
        change 0 ≤ counts.nLines at natural
        rw [ready.lineID, toChar_of_range (by omega) (by omega)]
    | folder attr fid sub items =>
        change toChar (counts.folderID + 1) = counts.nFolders + 1
        change counts.nFolders + _ ≤ 127 at room
        change 0 ≤ counts.nFolders at natural
        rw [ready.folderID, toChar_of_range (by omega) (by omega)]

theorem Ready.skip (ready : Ready counts (item :: rest)) (invalid : item.valid = false) :
    Ready counts rest := by
  refine ⟨ready.natural, fun type => ?_, ready.lineID, ready.folderID⟩
  have room := ready.room type
  rwa [countOf_cons_of_invalid rest invalid] at room

end Increase

theorem rebuildItems_rebuilt {items : List FavItem}
    (each : ∀ item ∈ items, item.valid = true → RebuildOk item) {counts : Counts}
    (ready : Ready counts items) (number : Int) :
    Rebuilt items counts number (rebuildItems items counts number) := by
  induction items generalizing counts number with
  | nil =>
      refine ⟨fun type => (Int.add_zero _).symm, fun type => rfl, fun type _ => ?_, trivial, rfl, rfl,
        (Int.add_zero _).symm⟩
      exact ⟨List.nodup_nil, nofun⟩
  | cons item rest ih =>
      have later := fun other member => each other (List.mem_cons_of_mem item member)
      rw [rebuildItems]
      cases isValid : item.valid with
      | true =>
        rw [if_pos rfl]
        dsimp only
        have ok := each item List.mem_cons_self isValid
        obtain ⟨stepped, readyRest, newId⟩ := ready.step isValid (ok.same number).2
        have left := ih later readyRest ((item.rebuild number).2 + 1)
        have newValid : (favIncrease counts (item.rebuild number).1).2.valid = true := by
          rw [favIncrease_valid, (ok.same number).1, isValid]
        have newType : (favIncrease counts (item.rebuild number).1).2.type = item.type := by
          rw [favIncrease_type, (ok.same number).2]
        have more := fun type => countOf_cons_of_valid rest isValid type
        refine ⟨?_, ?_, ?_, ?_, ?_, ?_, ?_⟩
        · intro type
          rw [left.numbers, stepped, more]
          split <;> omega
        · intro type
          rw [more, ← left.counted, countOf_cons_of_valid _ newValid, newType]
        · intro type notBoard
          obtain ⟨nodup, above⟩ := left.ids type notBoard
          rw [idsOf, List.filter_cons, isA_iff newValid, newType]
          by_cases same : item.type = type
          · subst same
            rw [if_pos (decide_eq_true rfl), List.map_cons, newId notBoard]
            have higher : ∀ id ∈ idsOf item.type
                (rebuildItems rest (favIncrease counts (item.rebuild number).1).1
                  ((item.rebuild number).2 + 1)).1, counts.number item.type + 1 < id := by
              intro id member
              have bound := above id member
              rwa [stepped, if_pos rfl] at bound
            constructor
            · rw [List.nodup_cons]
              exact ⟨fun member => Int.lt_irrefl _ (higher _ member), nodup⟩
            · intro id member
              rcases List.mem_cons.mp member with rfl | old
              · omega
              · have bound := higher id old
                omega
          · rw [if_neg (by rw [decide_eq_true_eq]; exact same)]
            refine ⟨nodup, fun id member => ?_⟩
            have bound := above id member
            rwa [stepped, if_neg same, Int.add_zero] at bound
        · exact ⟨(favIncrease_sound _ _).mpr (ok.sound number), left.sound⟩
        · rw [isNeedRebuildFav, favIncrease_needsRebuild, ok.clean, left.clean]
          rfl
        · rw [totalItems, totalItems, favIncrease_total, ok.total, left.total]
        · rw [left.number, ok.number, countValid, countValid, List.countP_cons, if_pos isValid]
          omega
      | false =>
        have left := ih later (ready.skip isValid) number
        have none := fun type => countOf_cons_of_invalid rest isValid type
        rw [if_neg Bool.false_ne_true]
        refine ⟨?_, ?_, left.ids, left.sound, left.clean, ?_, ?_⟩
        · intro type
          rw [left.numbers, none]
        · intro type
          rw [left.counted, none]
        · rw [left.total, totalItems, total_of_invalid isValid, Nat.zero_add]
        · rw [left.number, countValid, countValid, List.countP_cons, isValid,
            if_neg Bool.false_ne_true]
          rfl

theorem Ready.start {counts : Counts} {items : List FavItem} (right : Matches counts items)
    (narrow : Narrow counts) (few : totalItems items ≤ 32767) : Ready {} items := by
  refine ⟨fun type => ?_, fun type => ?_, rfl, rfl⟩
  · cases type <;> exact Int.le_refl 0
  · have number := right.numbers type
    cases type with
    | board =>
        have bound := Nat.le_trans (countOf_le_countValid .board items) (countValid_le_total items)
        change (0 : Int) + _ ≤ 32767
        omega
    | line =>
        have bound := narrow .line nofun
        change (0 : Int) + _ ≤ 127
        omega
    | folder =>
        have bound := narrow .folder nofun
        change (0 : Int) + _ ≤ 127
        omega

theorem Rebuilt.right {items : List FavItem} {number : Int}
    {result : List FavItem × Counts × Int} (rebuilt : Rebuilt items {} number result) :
    Matches result.2.1 result.1 := by
  have zero : ∀ type, (({} : Counts).number type) = 0 := by
    intro type
    cases type <;> rfl
  refine ⟨fun type => ?_, fun type notBoard => (rebuilt.ids type notBoard).1⟩
  rw [rebuilt.numbers, rebuilt.counted, zero, Int.zero_add]

theorem Rebuilt.narrow {items : List FavItem} {number : Int}
    {result : List FavItem × Counts × Int} (rebuilt : Rebuilt items {} number result)
    (ready : Ready {} items) : Narrow result.2.1 := by
  intro type notBoard
  have room := ready.room type
  rw [rebuilt.numbers]
  cases type with
  | board => exact absurd rfl notBoard
  | line => exact room
  | folder => exact room

theorem FavItem.total_folder {attr : Attr} {fid : Int} {counts : Counts} {items : List FavItem}
    (isFav : attr.fav = true) :
    (FavItem.folder attr fid counts items).total = 1 + totalItems items := by
  rw [FavItem.total, if_pos isFav]

mutual

theorem rebuildOk (item : FavItem) (isValid : item.valid = true) (sound : item.Sound)
    (few : item.total ≤ 32767) : RebuildOk item := by
  match item with
  | .board attr bid =>
      refine ⟨fun _ => ⟨rfl, rfl⟩, fun _ => trivial, fun _ => ?_, fun _ => rfl, fun _ => rfl⟩
      exact Bool.not_eq_eq_eq_not.mpr isValid
  | .line attr lid =>
      refine ⟨fun _ => ⟨rfl, rfl⟩, fun _ => trivial, fun _ => ?_, fun _ => rfl, fun _ => rfl⟩
      exact Bool.not_eq_eq_eq_not.mpr isValid
  | .folder attr fid counts items =>
      have isFav : attr.fav = true := isValid
      rw [FavItem.Sound] at sound
      obtain ⟨own, narrow, below⟩ := sound isFav
      rw [FavItem.total_folder isFav] at few
      have ready := Ready.start own narrow (by omega)
      have rebuilt := fun number => rebuildItems_rebuilt
        (fun item member valid => rebuildAllOk items below (by omega) item member valid) ready
        (number - getDataNumber counts)
      refine ⟨fun number => ⟨rfl, rfl⟩, fun number => ?_, fun number => ?_, fun number => ?_,
        fun number => ?_⟩
      · rw [FavItem.rebuild, FavItem.Sound]
        exact fun _ => ⟨(rebuilt number).right, (rebuilt number).narrow ready,
          (rebuilt number).sound⟩
      · rw [FavItem.rebuild, FavItem.needsRebuild, isFav, (rebuilt number).clean]
        rfl
      · rw [FavItem.rebuild, FavItem.total_folder isFav, FavItem.total_folder isFav,
          (rebuilt number).total]
      · rw [FavItem.rebuild, (rebuilt number).number, own.dataNumber]
        omega

theorem rebuildAllOk (items : List FavItem) (sound : AllSound items)
    (few : totalItems items ≤ 32767) :
    ∀ item ∈ items, item.valid = true → RebuildOk item := by
  match items with
  | [] => exact nofun
  | first :: rest =>
      rw [AllSound] at sound
      rw [totalItems] at few
      intro item member isValid
      rcases List.mem_cons.mp member with isFirst | inRest
      · rw [isFirst] at isValid ⊢
        exact rebuildOk first isValid sound.1 (by omega)
      · exact rebuildAllOk rest sound.2 (by omega) item inRest isValid

end

theorem rebuildFav_sound {fav : Fav} (sound : fav.Sound) (few : totalItems fav.items ≤ 32767)
    (number : Int) :
    (rebuildFav fav number).1.Sound ∧ (rebuildFav fav number).2 = number ∧
      totalItems (rebuildFav fav number).1.items = totalItems fav.items ∧
      isNeedRebuildFav (rebuildFav fav number).1.items = false := by
  have ready := Ready.start sound.own sound.narrow few
  have rebuilt := rebuildItems_rebuilt (rebuildAllOk fav.items sound.below few) ready
    (number - getDataNumber fav.counts)
  refine ⟨⟨rebuilt.right, rebuilt.narrow ready, rebuilt.sound⟩, ?_, rebuilt.total, rebuilt.clean⟩
  change (rebuildItems _ _ _).2.2 = number
  rw [rebuilt.number, sound.own.dataNumber]
  omega

end Pttbbs.Mbbsd.Favourites
