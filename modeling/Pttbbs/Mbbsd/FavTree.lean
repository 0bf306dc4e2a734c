/-
The tree of favourites and its measures.

The number of favourites in a tree, the favourites of one folder by their types,
and what it means for the counters of every folder to be right.  Another folder
at a place changes the number by the difference of the two folders, and leaves
the counters of all other folders right.
-/

import Mathlib.Algebra.BigOperators.Group.List.Basic
import Mathlib.Algebra.GroupWithZero.Nat
import Mathlib.Data.List.Nodup
import Pttbbs.Mbbsd.Fav

namespace Pttbbs.Mbbsd.Favourites

/-! ### Measures -/

mutual

def FavItem.total : FavItem → Nat
  | .board attr _ => if attr.fav then 1 else 0
  | .line attr _ => if attr.fav then 1 else 0
  | .folder attr _ _ items => if attr.fav then 1 + totalItems items else 0

def totalItems : List FavItem → Nat
  | [] => 0
  | item :: rest => item.total + totalItems rest

end

theorem totalItems_eq_sum (items : List FavItem) :
    totalItems items = (items.map FavItem.total).sum := by
  induction items with
  | nil => rfl
  | cons item rest ih => rw [totalItems, ih, List.map_cons, List.sum_cons]

theorem totalItems_append (items more : List FavItem) :
    totalItems (items ++ more) = totalItems items + totalItems more := by
  rw [totalItems_eq_sum, totalItems_eq_sum, totalItems_eq_sum, List.map_append, List.sum_append]

theorem totalItems_set {items : List FavItem} {index : Nat} {item : FavItem}
    (here : items[index]? = some item) (new : FavItem) :
    totalItems (items.set index new) + item.total = totalItems items + new.total := by
  induction items generalizing index with
  | nil => cases here
  | cons first rest ih =>
      cases index with
      | zero =>
          cases here
          rw [List.set_cons_zero, totalItems, totalItems]
          omega
      | succ index =>
          have later := ih here
          rw [List.set_cons_succ, totalItems, totalItems]
          omega

theorem totalItems_perm {items others : List FavItem} (perm : items.Perm others) :
    totalItems items = totalItems others := by
  rw [totalItems_eq_sum, totalItems_eq_sum]
  exact (perm.map FavItem.total).sum_eq

def FavItem.isA (type : ItemType) (item : FavItem) : Bool := item.valid && item.type = type

def countOf (type : ItemType) (items : List FavItem) : Nat := items.countP (FavItem.isA type)

def idsOf (type : ItemType) (items : List FavItem) : List Int :=
  (items.filter (FavItem.isA type)).map FavItem.id

theorem countOf_append (type : ItemType) (items more : List FavItem) :
    countOf type (items ++ more) = countOf type items + countOf type more :=
  List.countP_append

theorem idsOf_append (type : ItemType) (items more : List FavItem) :
    idsOf type (items ++ more) = idsOf type items ++ idsOf type more := by
  rw [idsOf, List.filter_append, List.map_append]
  rfl

def FavItem.seen (item : FavItem) : Bool × ItemType × Int := (item.valid, item.type, item.id)

theorem countOf_congr (type : ItemType) {items others : List FavItem}
    (same : items.map FavItem.seen = others.map FavItem.seen) :
    countOf type items = countOf type others ∧ idsOf type items = idsOf type others := by
  induction items generalizing others with
  | nil =>
      cases others with
      | nil => exact ⟨rfl, rfl⟩
      | cons other rest => cases same
  | cons item items ih =>
      cases others with
      | nil => cases same
      | cons other rest =>
          rw [List.map_cons, List.map_cons, List.cons.injEq] at same
          obtain ⟨counts, ids⟩ := ih same.2
          obtain ⟨sameValid, sameRest⟩ := Prod.mk.inj same.1
          obtain ⟨sameType, sameId⟩ := Prod.mk.inj sameRest
          have isA : item.isA type = other.isA type := by
            rw [FavItem.isA, FavItem.isA, sameValid, sameType]
          constructor
          · simp only [countOf, List.countP_cons, isA] at counts ⊢
            rw [counts]
          · simp only [idsOf, List.filter_cons, isA] at ids ⊢
            split
            · rw [List.map_cons, List.map_cons, ids, sameId]
            · exact ids

/-! ### Right counters -/

def Counts.number (counts : Counts) : ItemType → Int
  | .board => counts.nBoards
  | .line => counts.nLines
  | .folder => counts.nFolders

/-- The counters of a folder are those of its favourites, and the ids of its lines and of
its folders are different. -/
structure Matches (counts : Counts) (items : List FavItem) : Prop where
  numbers : ∀ type, counts.number type = countOf type items
  ids : ∀ type, type ≠ .board → (idsOf type items).Nodup

def Narrow (counts : Counts) : Prop := ∀ type, type ≠ .board → counts.number type ≤ 127

mutual

def FavItem.Sound : FavItem → Prop
  | .folder attr _ counts items =>
      attr.fav = true → Matches counts items ∧ Narrow counts ∧ AllSound items
  | _ => True

def AllSound : List FavItem → Prop
  | [] => True
  | item :: rest => item.Sound ∧ AllSound rest

end

theorem allSound_iff {items : List FavItem} : AllSound items ↔ ∀ item ∈ items, item.Sound := by
  induction items with
  | nil => exact ⟨nofun, fun _ => trivial⟩
  | cons item rest ih => rw [AllSound, ih, List.forall_mem_cons]

structure Fav.Sound (fav : Fav) : Prop where
  own : Matches fav.counts fav.items
  narrow : Narrow fav.counts
  below : AllSound fav.items

theorem AllSound.set {items : List FavItem} (sound : AllSound items) {item : FavItem}
    (itemSound : item.Sound) (index : Nat) : AllSound (items.set index item) := by
  rw [allSound_iff] at sound ⊢
  intro other member
  rcases List.mem_or_eq_of_mem_set member with old | rfl
  · exact sound other old
  · exact itemSound

theorem AllSound.append {items more : List FavItem} (sound : AllSound items)
    (moreSound : AllSound more) : AllSound (items ++ more) := by
  rw [allSound_iff] at sound moreSound ⊢
  intro item member
  rcases List.mem_append.mp member with old | new
  · exact sound item old
  · exact moreSound item new

theorem Matches.congr {counts : Counts} {items others : List FavItem}
    (right : Matches counts items) (same : others.map FavItem.seen = items.map FavItem.seen) :
    Matches counts others := by
  constructor
  · intro type
    rw [(countOf_congr type same).1]
    exact right.numbers type
  · intro type notBoard
    rw [(countOf_congr type same).2]
    exact right.ids type notBoard

/-! ### Places -/

theorem set_eq_self {α : Type} {list : List α} {index : Nat} {value : α}
    (here : list[index]? = some value) : list.set index value = list := by
  obtain ⟨bound, rfl⟩ := List.getElem?_eq_some_iff.mp here
  exact List.set_getElem_self bound

section Places

variable {fav sub new : Fav} {path : List Nat}

theorem getAt_cons {index : Nat} (found : Fav.getAt (index :: path) fav = some sub) :
    ∃ attr fid counts items, fav.items[index]? = some (.folder attr fid counts items) ∧
      attr.fav = true ∧ Fav.getAt path { counts := counts, items := items } = some sub := by
  rw [Fav.getAt] at found
  split at found
  · rename_i attr fid counts items here
    split at found
    · rename_i isFav
      exact ⟨attr, fid, counts, items, here, isFav, found⟩
    · cases found
  · cases found

theorem putAt_cons {index : Nat} {attr : Attr} {fid : Int} {counts : Counts}
    {items : List FavItem} (here : fav.items[index]? = some (.folder attr fid counts items)) :
    Fav.putAt (index :: path) fav new =
      { fav with
        items := fav.items.set index (.folder attr fid
          (Fav.putAt path { counts := counts, items := items } new).counts
          (Fav.putAt path { counts := counts, items := items } new).items) } := by
  rw [Fav.putAt, here]

theorem Fav.Sound.getAt (sound : fav.Sound) (found : Fav.getAt path fav = some sub) :
    sub.Sound := by
  induction path generalizing fav with
  | nil =>
      cases found
      exact sound
  | cons index path ih =>
      obtain ⟨attr, fid, counts, items, here, isFav, found⟩ := getAt_cons found
      have itemSound := allSound_iff.mp sound.below _ (List.mem_of_getElem? here)
      rw [FavItem.Sound] at itemSound
      obtain ⟨own, narrow, below⟩ := itemSound isFav
      exact ih ⟨own, narrow, below⟩ found

theorem Fav.Sound.putAt (sound : fav.Sound) (found : Fav.getAt path fav = some sub)
    (newSound : new.Sound) : (Fav.putAt path fav new).Sound := by
  induction path generalizing fav with
  | nil => exact newSound
  | cons index path ih =>
      obtain ⟨attr, fid, counts, items, here, isFav, found⟩ := getAt_cons found
      have itemSound := allSound_iff.mp sound.below _ (List.mem_of_getElem? here)
      rw [FavItem.Sound] at itemSound
      obtain ⟨own, narrow, below⟩ := itemSound isFav
      obtain ⟨own', narrow', below'⟩ := @ih { counts := counts, items := items }
        ⟨own, narrow, below⟩ found
      rw [putAt_cons here]
      have seen : (fav.items.set index (.folder attr fid
          (Fav.putAt path { counts := counts, items := items } new).counts
          (Fav.putAt path { counts := counts, items := items } new).items)).map FavItem.seen =
          fav.items.map FavItem.seen := by
        rw [List.map_set]
        apply set_eq_self
        rw [List.getElem?_map, here]
        rfl
      refine ⟨sound.own.congr seen, sound.narrow, sound.below.set ?_ index⟩
      rw [FavItem.Sound]
      exact fun _isFav => ⟨own', narrow', below'⟩

theorem totalItems_putAt (found : Fav.getAt path fav = some sub) :
    totalItems (Fav.putAt path fav new).items + totalItems sub.items =
      totalItems fav.items + totalItems new.items := by
  induction path generalizing fav with
  | nil =>
      cases found
      exact Nat.add_comm _ _
  | cons index path ih =>
      obtain ⟨attr, fid, counts, items, here, isFav, found⟩ := getAt_cons found
      have below := @ih { counts := counts, items := items } found
      have replaced := totalItems_set here (.folder attr fid
        (Fav.putAt path { counts := counts, items := items } new).counts
        (Fav.putAt path { counts := counts, items := items } new).items)
      rw [FavItem.total, FavItem.total, if_pos isFav, if_pos isFav] at replaced
      rw [putAt_cons here]
      dsimp only at below ⊢
      omega

end Places

end Pttbbs.Mbbsd.Favourites
