/-
The file of the favourites.

`fav_save` writes a tree in which every item is a favourite; `fav_load` reads the
same tree back, with the ids of lines and folders given out anew, and counts it.
-/

import Pttbbs.Mbbsd.FavCounters

namespace Pttbbs.Mbbsd.Favourites

def FavItem.shallow : FavItem → FavItem
  | .board attr bid => .board attr bid
  | .line attr lid => .line attr lid
  | .folder attr fid _ _ => .folder attr fid {} []

theorem readItems_fields (items : List FavItem) (rest : List Field) :
    readItems items.length (items.map FavItem.field ++ rest) =
      some (items.map FavItem.shallow, rest) := by
  induction items with
  | nil => rfl
  | cons item items ih =>
      rw [List.length_cons, List.map_cons, List.map_cons, List.cons_append]
      cases item with
      | board attr bid =>
          rw [FavItem.field, readItems, ih]
          rfl
      | line attr lid =>
          rw [FavItem.field, readItems, ih]
          rfl
      | folder attr fid counts sub =>
          rw [FavItem.field, readItems, ih]
          rfl

/-! ### Trees without removed items -/

theorem isNeedRebuildFav_cons {item : FavItem} {rest : List FavItem}
    (clean : isNeedRebuildFav (item :: rest) = false) :
    item.needsRebuild = false ∧ isNeedRebuildFav rest = false := by
  rw [isNeedRebuildFav] at clean
  exact Bool.or_eq_false_iff.mp clean

theorem valid_of_clean {item : FavItem} (clean : item.needsRebuild = false) :
    item.valid = true := by
  cases item with
  | board attr bid => exact Bool.not_eq_eq_eq_not.mp clean
  | line attr lid => exact Bool.not_eq_eq_eq_not.mp clean
  | folder attr fid counts items =>
      rw [FavItem.needsRebuild] at clean
      exact Bool.not_eq_eq_eq_not.mp (Bool.or_eq_false_iff.mp clean).1

theorem clean_folder {attr : Attr} {fid : Int} {counts : Counts} {items : List FavItem}
    (clean : (FavItem.folder attr fid counts items).needsRebuild = false) :
    attr.fav = true ∧ isNeedRebuildFav items = false := by
  rw [FavItem.needsRebuild] at clean
  have both := Bool.or_eq_false_iff.mp clean
  exact ⟨Bool.not_eq_eq_eq_not.mp both.1, both.2⟩

theorem clean_of_mem {items : List FavItem} (clean : isNeedRebuildFav items = false)
    {item : FavItem} (member : item ∈ items) : item.needsRebuild = false := by
  induction items with
  | nil => cases member
  | cons first rest ih =>
      obtain ⟨here, later⟩ := isNeedRebuildFav_cons clean
      rcases List.mem_cons.mp member with rfl | inRest
      · exact here
      · exact ih later inRest

theorem countValid_of_clean {items : List FavItem} (clean : isNeedRebuildFav items = false) :
    countValid items = items.length := by
  induction items with
  | nil => rfl
  | cons item rest ih =>
      obtain ⟨first, later⟩ := isNeedRebuildFav_cons clean
      have count := ih later
      rw [countValid] at count ⊢
      rw [List.countP_cons, if_pos (valid_of_clean first), count, List.length_cons]

theorem dataNumber_of_clean {counts : Counts} {items : List FavItem}
    (right : Matches counts items) (clean : isNeedRebuildFav items = false) :
    (getDataNumber counts).toNat = items.length := by
  rw [right.dataNumber, countValid_of_clean clean]
  rfl

/-! ### Reading back -/

def Counts.lastID (counts : Counts) : ItemType → Int
  | .board => 0
  | .line => counts.lineID
  | .folder => counts.folderID

structure ReadBack (items : List FavItem) (counts : Counts) (read : List FavItem)
    (after : Counts) (more : Int) : Prop where
  numbers : ∀ type, after.number type = counts.number type
  counted : ∀ type, countOf type read = countOf type items
  ids : ∀ type, type ≠ .board → (idsOf type read).Nodup ∧
    ∀ id ∈ idsOf type read, counts.lastID type < id
  sound : AllSound read
  total : totalItems read = totalItems items
  more : more + items.length = totalItems items

def ReadsBack (fuel : Nat) (fav : Fav) : Prop :=
  ∀ rest, ∃ read : Fav, readFavrec fuel (writeFavrec fav ++ rest) =
      some (read, (totalItems fav.items : Int), rest) ∧
    read.Sound ∧ totalItems read.items = totalItems fav.items

def FreshIDs (counts : Counts) (items : List FavItem) : Prop :=
  ∀ type, type ≠ .board → 0 ≤ counts.lastID type ∧
    counts.lastID type + countOf type items ≤ 127

theorem writeSub_folder {attr : Attr} {fid : Int} {counts : Counts} {items : List FavItem} :
    (FavItem.folder attr fid counts items).writeSub =
      writeFavrec { counts := counts, items := items } := by
  rw [FavItem.writeSub, writeFavrec]

section Step

variable {counts : Counts} {items read : List FavItem} {after : Counts} {more : Int}

theorem ReadBack.cons {item new : FavItem} {next : Counts} {count : Int}
    (back : ReadBack items next read after more) (isValid : item.valid = true)
    (newValid : new.valid = true) (newType : new.type = item.type) (newSound : new.Sound)
    (total : new.total = item.total) (counted : count + 1 = item.total)
    (numbers : ∀ type, next.number type = counts.number type)
    (others : ∀ type, type ≠ item.type → next.lastID type = counts.lastID type)
    (fresh : item.type ≠ .board → new.id = counts.lastID item.type + 1 ∧
      next.lastID item.type = counts.lastID item.type + 1) :
    ReadBack (item :: items) counts (new :: read) after (count + more) := by
  refine ⟨?_, ?_, ?_, ⟨newSound, back.sound⟩, ?_, ?_⟩
  · intro type
    rw [back.numbers, numbers]
  · intro type
    rw [countOf_cons_of_valid _ newValid, countOf_cons_of_valid _ isValid, back.counted, newType]
  · intro type notBoard
    obtain ⟨nodup, above⟩ := back.ids type notBoard
    rw [idsOf, List.filter_cons, isA_iff newValid, newType]
    by_cases same : item.type = type
    · subst same
      obtain ⟨newId, last⟩ := fresh notBoard
      rw [if_pos (decide_eq_true rfl), List.map_cons, newId]
      rw [last] at above
      constructor
      · rw [List.nodup_cons]
        exact ⟨fun member => Int.lt_irrefl _ (above _ member), nodup⟩
      · intro id member
        rcases List.mem_cons.mp member with rfl | old
        · omega
        · have bound := above id old
          omega
    · rw [if_neg (by rw [decide_eq_true_eq]; exact same)]
      rw [others type (Ne.symm same)] at above
      exact ⟨nodup, above⟩
  · rw [totalItems, totalItems, total, back.total]
  · have rest := back.more
    rw [totalItems, List.length_cons]
    push_cast
    omega

end Step

theorem readSubs_readBack {fuel : Nat} {items : List FavItem}
    (clean : isNeedRebuildFav items = false)
    (each : ∀ attr fid counts sub, FavItem.folder attr fid counts sub ∈ items →
      ReadsBack fuel { counts := counts, items := sub })
    {counts : Counts} (fresh : FreshIDs counts items) (rest : List Field) :
    ∃ read after more, readSubs (readFavrec fuel) (items.map FavItem.shallow) counts
        (writeSubs items items.length ++ rest) = some (read, after, more, rest) ∧
      ReadBack items counts read after more := by
  induction items generalizing counts with
  | nil =>
      refine ⟨[], counts, 0, rfl, fun _ => rfl, fun _ => rfl, fun _ _ => ?_, trivial, rfl, rfl⟩
      exact ⟨List.nodup_nil, fun _ member => absurd member List.not_mem_nil⟩
  | cons item items ih =>
      obtain ⟨first, later⟩ := isNeedRebuildFav_cons clean
      have isValid := valid_of_clean first
      have eachLater : ∀ attr fid counts sub, FavItem.folder attr fid counts sub ∈ items →
          ReadsBack fuel { counts := counts, items := sub } :=
        fun attr fid counts sub member => each attr fid counts sub (List.mem_cons_of_mem item member)
      have fits : ∀ type, type ≠ .board → 0 ≤ counts.lastID type ∧ counts.lastID type +
          (countOf type items + if item.type = type then 1 else 0 : Nat) ≤ 127 := by
        intro type notBoard
        have bound := fresh type notBoard
        rwa [countOf_cons_of_valid items isValid] at bound
      rw [List.length_cons, List.map_cons, writeSubs, List.append_assoc]
      cases item with
      | board attr bid =>
          have freshLater : FreshIDs counts items := by
            intro type notBoard
            have bound := fits type notBoard
            omega
          obtain ⟨read, after, more, result, back⟩ := ih later eachLater freshLater
          refine ⟨.board attr bid :: read, after, 0 + more, ?_, ?_⟩
          · rw [FavItem.shallow, show (FavItem.board attr bid).writeSub = [] from rfl,
              List.nil_append, readSubs, result, Int.zero_add]
            rfl
          · refine back.cons isValid isValid rfl trivial rfl ?_ (fun _ => rfl) (fun _ _ => rfl) ?_
            · rw [FavItem.total, if_pos (show attr.fav = true from isValid)]
              rfl
            · exact fun notBoard => absurd rfl notBoard
      | line attr lid =>
          have bound := fits .line (by decide)
          rw [if_pos (show (FavItem.line attr lid).type = .line from rfl)] at bound
          change 0 ≤ counts.lineID ∧ counts.lineID + _ ≤ 127 at bound
          have next : toChar (counts.lineID + 1) = counts.lineID + 1 :=
            toChar_of_range (by omega) (by omega)
          have freshLater : FreshIDs { counts with lineID := counts.lineID + 1 } items := by
            intro type notBoard
            have old := fits type notBoard
            cases type with
            | board => exact absurd rfl notBoard
            | line =>
                change 0 ≤ counts.lineID + 1 ∧ counts.lineID + 1 + _ ≤ 127
                omega
            | folder =>
                change 0 ≤ counts.folderID ∧ counts.folderID + _ ≤ 127
                change 0 ≤ counts.folderID ∧ counts.folderID + _ ≤ 127 at old
                omega
          obtain ⟨read, after, more, result, back⟩ := ih later eachLater freshLater
          refine ⟨.line attr (counts.lineID + 1) :: read, after, 0 + more, ?_, ?_⟩
          · rw [FavItem.shallow, show (FavItem.line attr lid).writeSub = [] from rfl,
              List.nil_append, readSubs, next, result, Int.zero_add]
            rfl
          · refine back.cons isValid isValid rfl trivial rfl ?_ (fun type => ?_) (fun type other => ?_)
              fun _ => ⟨rfl, rfl⟩
            · rw [FavItem.total, if_pos (show attr.fav = true from isValid)]
              rfl
            · cases type <;> rfl
            · cases type with
              | board => rfl
              | line => exact absurd rfl other
              | folder => rfl
      | folder attr fid counts' sub =>
          have bound := fits .folder (by decide)
          rw [if_pos (show (FavItem.folder attr fid counts' sub).type = .folder from rfl)] at bound
          change 0 ≤ counts.folderID ∧ counts.folderID + _ ≤ 127 at bound
          have next : toChar (counts.folderID + 1) = counts.folderID + 1 :=
            toChar_of_range (by omega) (by omega)
          have freshLater : FreshIDs { counts with folderID := counts.folderID + 1 } items := by
            intro type notBoard
            have old := fits type notBoard
            cases type with
            | board => exact absurd rfl notBoard
            | line =>
                change 0 ≤ counts.lineID ∧ counts.lineID + _ ≤ 127
                change 0 ≤ counts.lineID ∧ counts.lineID + _ ≤ 127 at old
                omega
            | folder =>
                change 0 ≤ counts.folderID + 1 ∧ counts.folderID + 1 + _ ≤ 127
                omega
          obtain ⟨read, after, more, result, back⟩ := ih later eachLater freshLater
          obtain ⟨folder, readSub, folderSound, folderTotal⟩ :=
            each attr fid counts' sub List.mem_cons_self (writeSubs items items.length ++ rest)
          have isFav : attr.fav = true := isValid
          refine ⟨.folder attr (counts.folderID + 1) folder.counts folder.items :: read, after,
            (totalItems sub : Int) + more, ?_, ?_⟩
          · rw [FavItem.shallow, writeSub_folder, readSubs, readSub, next]
            simp only [Option.bind_eq_bind, Option.bind_some, result]
          · refine back.cons isValid isFav rfl ?_ ?_ ?_ (fun type => ?_) (fun type other => ?_)
              fun _ => ⟨rfl, rfl⟩
            · rw [FavItem.Sound]
              exact fun _ => ⟨folderSound.own, folderSound.narrow, folderSound.below⟩
            · rw [FavItem.total_folder isFav, FavItem.total_folder isFav, folderTotal]
            · rw [FavItem.total_folder isFav]
              push_cast
              omega
            · cases type <;> rfl
            · cases type with
              | board => rfl
              | line => rfl
              | folder => exact absurd rfl other

theorem readsBack_of_each {fuel : Nat} {fav : Fav} (sound : fav.Sound)
    (clean : isNeedRebuildFav fav.items = false)
    (each : ∀ attr fid counts sub, FavItem.folder attr fid counts sub ∈ fav.items →
      ReadsBack fuel { counts := counts, items := sub }) : ReadsBack (fuel + 1) fav := by
  intro rest
  have length := dataNumber_of_clean sound.own clean
  obtain ⟨counts, isCounts⟩ : ∃ counts : Counts, counts =
      { nBoards := fav.counts.nBoards, nLines := fav.counts.nLines
        nFolders := fav.counts.nFolders } := ⟨_, rfl⟩
  have numbers : ∀ type, counts.number type = fav.counts.number type := by
    intro type
    rw [isCounts]
    cases type <;> rfl
  have fresh : FreshIDs counts fav.items := by
    intro type notBoard
    have bound := sound.narrow type notBoard
    rw [sound.own.numbers] at bound
    have zero : counts.lastID type = 0 := by
      rw [isCounts]
      cases type <;> rfl
    rw [zero]
    omega
  obtain ⟨read, after, more, result, back⟩ := readSubs_readBack clean each fresh rest
  have sameNumber : getDataNumber counts = getDataNumber fav.counts := by
    rw [isCounts]
    rfl
  have afterNumber : getDataNumber after = fav.items.length := by
    have boards := back.numbers .board
    have lines := back.numbers .line
    have folders := back.numbers .folder
    change after.nBoards = counts.nBoards at boards
    change after.nLines = counts.nLines at lines
    change after.nFolders = counts.nFolders at folders
    have same : getDataNumber after = getDataNumber counts := by
      rw [getDataNumber, getDataNumber, boards, lines, folders]
    rw [same, sameNumber, sound.own.dataNumber, countValid_of_clean clean]
  refine ⟨{ counts := after, items := read }, ?_, ⟨⟨?_, ?_⟩, ?_, back.sound⟩, back.total⟩
  · rw [writeFavrec, length, List.take_length, List.cons_append, List.append_assoc, readFavrec]
    dsimp only
    rw [← isCounts, sameNumber, length, readItems_fields]
    simp only [Option.bind_eq_bind, Option.bind_some, result, afterNumber]
    have total := back.more
    rw [show (fav.items.length : Int) + more = (totalItems fav.items : Int) by omega]
  · intro type
    change after.number type = (countOf type read : Nat)
    rw [back.numbers, numbers, sound.own.numbers, back.counted]
  · intro type notBoard
    exact (back.ids type notBoard).1
  · intro type notBoard
    change after.number type ≤ 127
    rw [back.numbers, numbers]
    exact sound.narrow type notBoard

theorem writeSubs_length_le {items : List FavItem} {item : FavItem} (member : item ∈ items) :
    item.writeSub.length ≤ (writeSubs items items.length).length := by
  induction items with
  | nil => cases member
  | cons first rest ih =>
      rw [List.length_cons, writeSubs, List.length_append]
      rcases List.mem_cons.mp member with rfl | inRest
      · exact Nat.le_add_right _ _
      · exact Nat.le_trans (ih inRest) (Nat.le_add_left _ _)

theorem readsBack {fuel : Nat} {fav : Fav} (sound : fav.Sound)
    (clean : isNeedRebuildFav fav.items = false) (enough : (writeFavrec fav).length ≤ fuel) :
    ReadsBack fuel fav := by
  induction fuel generalizing fav with
  | zero => exact absurd enough (Nat.not_succ_le_zero _)
  | succ fuel ih =>
      apply readsBack_of_each sound clean
      intro attr fid counts sub member
      have itemSound := allSound_iff.mp sound.below _ member
      have itemClean := clean_of_mem clean member
      obtain ⟨isFav, subClean⟩ := clean_folder itemClean
      rw [FavItem.Sound] at itemSound
      obtain ⟨own, narrow, below⟩ := itemSound isFav
      apply ih ⟨own, narrow, below⟩ subClean
      have shorter := writeSubs_length_le member
      rw [writeSub_folder] at shorter
      rw [writeFavrec, List.length_cons, List.length_append,
        dataNumber_of_clean sound.own clean] at enough
      omega

end Pttbbs.Mbbsd.Favourites
