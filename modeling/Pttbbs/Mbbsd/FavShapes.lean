/-
What the file of the favourites keeps.

Cleaning up, and writing a tree and reading it back, leave every favourite in its place, in
folders of any depth.  Only the ids of lines and folders are given out anew.
-/

import Pttbbs.Mbbsd.FavRuns

namespace Pttbbs.Mbbsd.Favourites

open Pttbbs.Lib

mutual

/-- A favourite without its id, and without what has been removed below it. -/
def FavItem.shape : FavItem → FavItem
  | .board attr bid => .board attr bid
  | .line attr _ => .line attr 0
  | .folder attr _ _ items => .folder attr 0 {} (shapes items)

def shapes : List FavItem → List FavItem
  | [] => []
  | item :: rest => if item.valid then item.shape :: shapes rest else shapes rest

end

theorem shapes_cons {item : FavItem} (isValid : item.valid = true) (rest : List FavItem) :
    shapes (item :: rest) = item.shape :: shapes rest := if_pos isValid

/-! ### Cleaning up -/

theorem favIncrease_shape (counts : Counts) (item : FavItem) :
    (favIncrease counts item).2.shape = item.shape := by
  cases item <;> rfl

theorem rebuild_valid (item : FavItem) (number : Int) :
    (item.rebuild number).1.valid = item.valid := by
  cases item <;> rfl

mutual

theorem rebuild_shape (item : FavItem) (number : Int) :
    (item.rebuild number).1.shape = item.shape := by
  cases item with
  | board attr bid => rfl
  | line attr lid => rfl
  | folder attr fid counts items =>
      rw [FavItem.rebuild, FavItem.shape, FavItem.shape, rebuildItems_shapes]

theorem rebuildItems_shapes (items : List FavItem) (counts : Counts) (number : Int) :
    shapes (rebuildItems items counts number).1 = shapes items := by
  cases items with
  | nil => rfl
  | cons item rest =>
      rw [rebuildItems, shapes]
      by_cases isValid : item.valid = true
      · rw [if_pos isValid, if_pos isValid, shapes, favIncrease_valid, rebuild_valid,
          if_pos isValid, favIncrease_shape, rebuild_shape, rebuildItems_shapes]
      · rw [if_neg isValid, if_neg isValid, rebuildItems_shapes]

end

theorem cleanup_shapes (state : FavState) :
    shapes state.favCleanup.root.items = shapes state.root.items := by
  unfold FavState.favCleanup
  split
  · exact rebuildItems_shapes _ _ _
  · rfl

/-! ### Reading back -/

def Restores (fuel : Nat) (fav : Fav) : Prop :=
  ∀ rest, ∃ read number, readFavrec fuel (writeFavrec fav ++ rest) = some (read, number, rest) ∧
    shapes read.items = shapes fav.items

theorem readSubs_shapes {fuel : Nat} {items : List FavItem}
    (clean : isNeedRebuildFav items = false)
    (each : ∀ attr fid counts sub, FavItem.folder attr fid counts sub ∈ items →
      Restores fuel { counts := counts, items := sub }) (counts : Counts) (rest : List Field) :
    ∃ read after more, readSubs (readFavrec fuel) (items.map FavItem.shallow) counts
        (writeSubs items items.length ++ rest) = some (read, after, more, rest) ∧
      shapes read = shapes items := by
  induction items generalizing counts with
  | nil => exact ⟨[], counts, 0, rfl, rfl⟩
  | cons item items ih =>
      obtain ⟨first, later⟩ := isNeedRebuildFav_cons clean
      have isValid := valid_of_clean first
      have restored := ih later fun attr fid counts sub member =>
        each attr fid counts sub (List.mem_cons_of_mem item member)
      rw [List.length_cons, List.map_cons, writeSubs, List.append_assoc, shapes_cons isValid]
      cases item with
      | board attr bid =>
          obtain ⟨read, after, more, result, same⟩ := restored counts
          refine ⟨.board attr bid :: read, after, more, ?_, ?_⟩
          · rw [FavItem.shallow, show (FavItem.board attr bid).writeSub = [] from rfl,
              List.nil_append, readSubs, result]
            rfl
          · rw [shapes_cons isValid, same]
      | line attr lid =>
          obtain ⟨read, after, more, result, same⟩ :=
            restored { counts with lineID := toChar (counts.lineID + 1) }
          refine ⟨.line attr (toChar (counts.lineID + 1)) :: read, after, more, ?_, ?_⟩
          · rw [FavItem.shallow, show (FavItem.line attr lid).writeSub = [] from rfl,
              List.nil_append, readSubs, result]
            rfl
          · simp only [shapes, show ∀ id, (FavItem.line attr id).valid = true from fun _ => isValid,
              if_true, FavItem.shape, same]
      | folder attr fid own sub =>
          obtain ⟨read, after, more, result, same⟩ :=
            restored { counts with folderID := toChar (counts.folderID + 1) }
          obtain ⟨folder, number, readSub, sameSub⟩ :=
            each attr fid own sub List.mem_cons_self (writeSubs items items.length ++ rest)
          refine ⟨.folder attr (toChar (counts.folderID + 1)) folder.counts folder.items :: read,
            after, number + more, ?_, ?_⟩
          · rw [FavItem.shallow, writeSub_folder, readSubs, readSub]
            simp only [Option.bind_eq_bind, Option.bind_some, result]
          · simp only [shapes, show ∀ id own sub, (FavItem.folder attr id own sub).valid = true from
              fun _ _ _ => isValid, if_true, FavItem.shape, same, sameSub]

theorem restores {fuel : Nat} {fav : Fav} (sound : fav.Sound)
    (clean : isNeedRebuildFav fav.items = false) (enough : (writeFavrec fav).length ≤ fuel) :
    Restores fuel fav := by
  induction fuel generalizing fav with
  | zero => exact absurd enough (Nat.not_succ_le_zero _)
  | succ fuel ih =>
      have length := dataNumber_of_clean sound.own clean
      intro rest
      obtain ⟨read, after, more, result, same⟩ := @readSubs_shapes fuel fav.items clean (by
        intro attr fid counts sub member
        have itemSound := allSound_iff.mp sound.below _ member
        obtain ⟨isFav, subClean⟩ := clean_folder (clean_of_mem clean member)
        rw [FavItem.Sound] at itemSound
        obtain ⟨own, narrow, below⟩ := itemSound isFav
        have shorter := writeSubs_length_le member
        rw [writeSub_folder] at shorter
        rw [writeFavrec, List.length_cons, List.length_append, length] at enough
        exact ih ⟨own, narrow, below⟩ subClean (by omega))
        { nBoards := fav.counts.nBoards, nLines := fav.counts.nLines,
          nFolders := fav.counts.nFolders } rest
      refine ⟨{ counts := after, items := read }, getDataNumber after + more, ?_, same⟩
      rw [writeFavrec, length, List.take_length, List.cons_append, List.append_assoc, readFavrec]
      dsimp only
      change (readItems (getDataNumber fav.counts).toNat _).bind _ = _
      rw [length, readItems_fields]
      simp only [Option.bind_eq_bind, Option.bind_some, result]

/-! ### Runs -/

end Pttbbs.Mbbsd.Favourites
