/-
Sorting the favourites of a folder.

`fav_sort_by_name` and `fav_sort_by_class` rebuild the folder, so that the items left are
favourites of the three types, and hand it to `qsort`.
-/

import Pttbbs.Common.BoardTable
import Pttbbs.Lib.Comparison

namespace Pttbbs.Mbbsd.Favourites

open Pttbbs.Lib Pttbbs.Lib.Comparison
open Pttbbs.Common.BoardTable (BoardHeader maxBoard)

/-- What a `fav_type_t` stands for; its type may be none of the three. -/
inductive FavKind where
  | board (bid : Int)
  | folder (title : CStr)
  | line
  | other

structure FavEntry where
  valid : Bool
  kind : FavKind

namespace FavEntry

def IsFolder (ft : FavEntry) : Prop := ∃ title, ft.kind = .folder title

def IsLine (ft : FavEntry) : Prop := ft.kind = .line

end FavEntry

def dashes : CStr := ⟨[45, 45, 45, 45], by decide⟩

def folderClass : CStr := ⟨[0xA5, 0xD8, 0xBF, 0xFD], by decide⟩

section Compare

variable (bcache : Int → BoardHeader)

def getItemTitle (ft : FavEntry) : CStr :=
  match ft.kind with
  | .board bid => if bid < 1 ∨ maxBoard < bid then default else (bcache bid).brdname
  | .folder title => title
  | .line => dashes
  | .other => default

def getItemClass (ft : FavEntry) : CStr :=
  match ft.kind with
  | .board bid => if bid < 1 ∨ maxBoard < bid then default else (bcache bid).bclass
  | .folder _ => folderClass
  | .line => dashes
  | .other => default

def favcmpByName (f1 f2 : FavEntry) : Int :=
  (getItemTitle bcache f1).strcasecmp (getItemTitle bcache f2)

def favcmpByClass (f1 f2 : FavEntry) : Int :=
  match f1.kind, f2.kind with
  | .folder _, _ => -1
  | _, .folder _ => 1
  | .line, _ => 1
  | _, .line => -1
  | _, _ =>
      let cmp := (getItemClass bcache f1).strcasecmp (getItemClass bcache f2)
      if cmp ≠ 0 then cmp
      else (getItemTitle bcache f1).strcasecmp (getItemTitle bcache f2)

end Compare

def rebuilt (entries : List FavEntry) : List FavEntry :=
  entries.filter fun ft =>
    ft.valid && match ft.kind with
      | .other => false
      | _ => true

def FavSortByClass (bcache : Int → BoardHeader) (entries result : List FavEntry) : Prop :=
  QsortLeaves (favcmpByClass bcache) (rebuilt entries) result

/-! ### The order that is meant -/

section Order

variable (bcache : Int → BoardHeader)

def rank (ft : FavEntry) : Nat :=
  match ft.kind with
  | .folder _ => 0
  | .board _ => 1
  | .line => 2
  | .other => 1

def boardKey (ft : FavEntry) : Bytes ×ₗ Bytes :=
  toLex ((getItemClass bcache ft).fold, (getItemTitle bcache ft).fold)

/-- A place in front: an earlier rank, or a board not after another by class and name. -/
def Precedes (f1 f2 : FavEntry) : Prop :=
  rank f1 < rank f2 ∨
    rank f1 = rank f2 ∧ (rank f1 = 1 → boardKey bcache f1 ≤ boardKey bcache f2)

structure SortsFavs (entries : List FavEntry) : Prop where
  byName : ConsistentOn (favcmpByName bcache) entries
  byClass : ConsistentOn (favcmpByClass bcache) entries
  sorted : ∀ result, FavSortByClass bcache entries result →
    result.Perm (rebuilt entries) ∧ result.Pairwise (Precedes bcache)

end Order

variable {bcache : Int → BoardHeader} {entries : List FavEntry}

theorem strcasecmp_sign {Item : Type} (text : Item → CStr) (left right : Item) :
    SignOf (fun item => (text item).fold) left right
      ((text left).strcasecmp (text right)) := by
  constructor
  · exact CStr.strcasecmp_neg
  · exact CStr.strcasecmp_eq_zero

theorem favcmpByName_consistent (entries : List FavEntry) :
    ConsistentOn (favcmpByName bcache) entries :=
  consistentOn_of_sign fun _ _ _ => strcasecmp_sign (getItemTitle bcache) _ _

def classKey (bcache : Int → BoardHeader) (ft : FavEntry) : Nat ×ₗ (Bytes ×ₗ Bytes) :=
  toLex (rank ft, if rank ft = 1 then boardKey bcache ft else toLex ([], []))

theorem classKey_lt {f1 f2 : FavEntry} (before : rank f1 < rank f2) :
    classKey bcache f1 < classKey bcache f2 :=
  Prod.Lex.toLex_lt_toLex.mpr (Or.inl before)

theorem boardKey_sign (f1 f2 : FavEntry) :
    SignOf (boardKey bcache) f1 f2
      (if (getItemClass bcache f1).strcasecmp (getItemClass bcache f2) ≠ 0 then
        (getItemClass bcache f1).strcasecmp (getItemClass bcache f2)
      else (getItemTitle bcache f1).strcasecmp (getItemTitle bcache f2)) :=
  (strcasecmp_sign (getItemClass bcache) f1 f2).lex (strcasecmp_sign (getItemTitle bcache) f1 f2)

theorem classKey_sign {f1 f2 : FavEntry} {result : Int} (first : rank f1 = 1)
    (second : rank f2 = 1) (sign : SignOf (boardKey bcache) f1 f2 result) :
    SignOf (classKey bcache) f1 f2 result := by
  have left : classKey bcache f1 = toLex (1, boardKey bcache f1) := by
    rw [classKey, if_pos first, first]
  have right : classKey bcache f2 = toLex (1, boardKey bcache f2) := by
    rw [classKey, if_pos second, second]
  constructor
  · rw [left, right, sign.neg, Prod.Lex.toLex_lt_toLex]
    exact ⟨fun less => Or.inr ⟨rfl, less⟩, fun less => (less.resolve_left (lt_irrefl _)).2⟩
  · rw [left, right, sign.zero]
    constructor
    · intro same
      rw [same]
    · intro both
      exact congrArg (fun pair => (ofLex pair).2) both

theorem favcmpByClass_sign {f1 f2 : FavEntry} (folders : ¬ (f1.IsFolder ∧ f2.IsFolder))
    (lines : ¬ (f1.IsLine ∧ f2.IsLine)) :
    SignOf (classKey bcache) f1 f2 (favcmpByClass bcache f1 f2) := by
  obtain ⟨valid1, kind1⟩ := f1
  obtain ⟨valid2, kind2⟩ := f2
  cases kind1 with
  | folder title =>
      cases kind2 with
      | folder other => exact absurd ⟨⟨title, rfl⟩, ⟨other, rfl⟩⟩ folders
      | board bid => exact SignOf.of_lt (classKey_lt (show (0 : Nat) < 1 by decide))
      | line => exact SignOf.of_lt (classKey_lt (show (0 : Nat) < 2 by decide))
      | other => exact SignOf.of_lt (classKey_lt (show (0 : Nat) < 1 by decide))
  | line =>
      cases kind2 with
      | folder title => exact SignOf.of_gt (classKey_lt (show (0 : Nat) < 2 by decide))
      | board bid => exact SignOf.of_gt (classKey_lt (show (1 : Nat) < 2 by decide))
      | line => exact absurd ⟨rfl, rfl⟩ lines
      | other => exact SignOf.of_gt (classKey_lt (show (1 : Nat) < 2 by decide))
  | board bid =>
      cases kind2 with
      | folder title => exact SignOf.of_gt (classKey_lt (show (0 : Nat) < 1 by decide))
      | line => exact SignOf.of_lt (classKey_lt (show (1 : Nat) < 2 by decide))
      | board _ => exact classKey_sign rfl rfl (boardKey_sign _ _)
      | other => exact classKey_sign rfl rfl (boardKey_sign _ _)
  | other =>
      cases kind2 with
      | folder title => exact SignOf.of_gt (classKey_lt (show (0 : Nat) < 1 by decide))
      | line => exact SignOf.of_lt (classKey_lt (show (1 : Nat) < 2 by decide))
      | board bid => exact classKey_sign rfl rfl (boardKey_sign _ _)
      | other => exact classKey_sign rfl rfl (boardKey_sign _ _)

theorem precedes_of_classKey {f1 f2 : FavEntry} (order : classKey bcache f1 ≤ classKey bcache f2) :
    Precedes bcache f1 f2 := by
  rcases Prod.Lex.toLex_le_toLex.mp order with before | ⟨same, keys⟩
  · exact Or.inl before
  · refine Or.inr ⟨same, fun middle => ?_⟩
    have other : rank f2 = 1 := same.symm.trans middle
    change (if rank f1 = 1 then boardKey bcache f1 else _) ≤
      (if rank f2 = 1 then boardKey bcache f2 else _) at keys
    rw [if_pos middle, if_pos other] at keys
    exact keys

theorem favcmpByClass_consistent (folders : AtMostOne FavEntry.IsFolder entries)
    (lines : AtMostOne FavEntry.IsLine entries) :
    ConsistentOn (favcmpByClass bcache) entries :=
  consistentOn_of_sign fun _ _ differ =>
    favcmpByClass_sign (folders.apart differ) (lines.apart differ)

theorem sorted_of_single (folders : AtMostOne FavEntry.IsFolder entries)
    (lines : AtMostOne FavEntry.IsLine entries) {result : List FavEntry}
    (leaves : FavSortByClass bcache entries result) :
    result.Perm (rebuilt entries) ∧ result.Pairwise (Precedes bcache) := by
  have foldersLeft : AtMostOne FavEntry.IsFolder (rebuilt entries) := folders.filter _
  have linesLeft : AtMostOne FavEntry.IsLine (rebuilt entries) := lines.filter _
  obtain ⟨same, sorted⟩ := leaves (favcmpByClass_consistent foldersLeft linesLeft)
  refine ⟨same, ?_⟩
  have apart := (foldersLeft.perm same).and (linesLeft.perm same)
  refine (sorted.and apart).imp ?_
  intro f1 f2 both
  exact precedes_of_classKey ((favcmpByClass_sign both.2.1 both.2.2).le_zero.mp both.1)

theorem favcmpByClass_folders {f1 f2 : FavEntry} (folder1 : f1.IsFolder) (folder2 : f2.IsFolder) :
    ¬ Opposite (favcmpByClass bcache f1 f2) (favcmpByClass bcache f2 f1) := by
  obtain ⟨valid1, kind1⟩ := f1
  obtain ⟨valid2, kind2⟩ := f2
  obtain ⟨title1, rfl⟩ := folder1
  obtain ⟨title2, rfl⟩ := folder2
  exact not_opposite_self (show (-1 : Int) ≠ 0 by decide)

theorem favcmpByClass_lines {f1 f2 : FavEntry} (line1 : f1.IsLine) (line2 : f2.IsLine) :
    ¬ Opposite (favcmpByClass bcache f1 f2) (favcmpByClass bcache f2 f1) := by
  obtain ⟨valid1, kind1⟩ := f1
  obtain ⟨valid2, kind2⟩ := f2
  cases line1
  cases line2
  exact not_opposite_self (show (1 : Int) ≠ 0 by decide)

/-- Favourites are sorted well exactly when the folder holds at most one folder and one line. -/
theorem sortsFavs_iff (bcache : Int → BoardHeader) (entries : List FavEntry) :
    SortsFavs bcache entries ↔
      AtMostOne FavEntry.IsFolder entries ∧ AtMostOne FavEntry.IsLine entries := by
  constructor
  · intro sorts
    constructor
    · exact AtMostOne.of_apart fun i j differ both =>
        favcmpByClass_folders both.1 both.2 (sorts.byClass.opposite i j differ)
    · exact AtMostOne.of_apart fun i j differ both =>
        favcmpByClass_lines both.1 both.2 (sorts.byClass.opposite i j differ)
  · intro single
    exact
      { byName := favcmpByName_consistent entries
        byClass := favcmpByClass_consistent single.1 single.2
        sorted := fun _ leaves => sorted_of_single single.1 single.2 leaves }

def twoFolders : List FavEntry :=
  [{ valid := true, kind := .folder ⟨[97], by decide⟩ },
    { valid := true, kind := .folder ⟨[98], by decide⟩ }]

/-- Two folders, `a` and `b`: each is said to come before the other. -/
theorem not_sortsFavs_twoFolders :
    ¬ SortsFavs (fun _ => { brdname := ⟨[], by decide⟩ }) twoFolders := by
  intro sorts
  exact not_opposite_self (show (-1 : Int) ≠ 0 by decide)
    (sorts.byClass.opposite ⟨0, by decide⟩ ⟨1, by decide⟩ (by decide))

end Pttbbs.Mbbsd.Favourites
