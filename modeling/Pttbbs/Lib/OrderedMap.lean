/-
Finite maps kept as strictly ordered association lists.

An ordered map is what a scan of an ordered key-value store returns: its
entries, each key once, in key order.  Point reads, writes, range scans and
counts over a scan are stated for an arbitrary linearly ordered key type.
-/

import Mathlib.Order.Basic
import Mathlib.Order.Defs.LinearOrder
import Mathlib.Data.List.Sort
import Mathlib.Tactic.Cases

namespace Pttbbs.Lib

/-- The entries are strictly increasing in key, so no key occurs twice. -/
structure OrderedMap (K V : Type) [LinearOrder K] where
  entries : List (K × V)
  ordered : entries.Pairwise (fun left right => left.1 < right.1)

namespace OrderedMap

variable {K V : Type} [LinearOrder K]

/-! ### Association lists -/

def lookup (key : K) : List (K × V) → Option V
  | [] => none
  | entry :: rest => if entry.1 = key then some entry.2 else lookup key rest

def insertEntry (key : K) (value : V) : List (K × V) → List (K × V)
  | [] => [(key, value)]
  | entry :: rest =>
      if key < entry.1 then (key, value) :: entry :: rest
      else if key = entry.1 then (key, value) :: rest
      else entry :: insertEntry key value rest

def eraseEntry (key : K) (entries : List (K × V)) : List (K × V) :=
  entries.filter (fun entry => entry.1 ≠ key)

section

variable {key : K} {value : V} {entries : List (K × V)}
  (ordered : entries.Pairwise (fun left right => left.1 < right.1))

include ordered

theorem mem_insertEntry (entry : K × V) :
    entry ∈ insertEntry key value entries ↔
      entry = (key, value) ∨ (entry ∈ entries ∧ entry.1 ≠ key) := by
  induction entries with
  | nil => simp [insertEntry]
  | cons head rest ih =>
      have headRest := List.pairwise_cons.mp ordered
      unfold insertEntry
      split
      · rename_i before
        have apart : ∀ other ∈ head :: rest, other.1 ≠ key := by
          intro other member same
          rcases List.mem_cons.mp member with atHead | inRest
          · subst atHead
            exact absurd before (by rw [same]; exact lt_irrefl key)
          · have later := headRest.1 other inRest
            rw [same] at later
            exact absurd (before.trans later) (lt_irrefl key)
        constructor
        · intro member
          rcases List.mem_cons.mp member with fresh | old
          · exact Or.inl fresh
          · exact Or.inr ⟨old, apart entry old⟩
        · rintro (fresh | ⟨old, _different⟩)
          · exact List.mem_cons.mpr (Or.inl fresh)
          · exact List.mem_cons.mpr (Or.inr old)
      · split
        · rename_i same
          have apart : ∀ other ∈ rest, other.1 ≠ key := by
            intro other member equal
            have later := headRest.1 other member
            rw [equal, same] at later
            exact lt_irrefl _ later
          constructor
          · intro member
            rcases List.mem_cons.mp member with fresh | old
            · exact Or.inl fresh
            · exact Or.inr ⟨List.mem_cons.mpr (Or.inr old), apart entry old⟩
          · rintro (fresh | ⟨old, different⟩)
            · exact List.mem_cons.mpr (Or.inl fresh)
            · rcases List.mem_cons.mp old with atHead | inRest
              · subst atHead
                exact absurd same.symm different
              · exact List.mem_cons.mpr (Or.inr inRest)
        · rename_i different
          rw [List.mem_cons, ih headRest.2, List.mem_cons]
          constructor
          · rintro (atHead | fresh | ⟨old, apart⟩)
            · subst atHead
              exact Or.inr ⟨Or.inl rfl, fun equal => different equal.symm⟩
            · exact Or.inl fresh
            · exact Or.inr ⟨Or.inr old, apart⟩
          · rintro (fresh | ⟨atHead | old, apart⟩)
            · exact Or.inr (Or.inl fresh)
            · exact Or.inl atHead
            · exact Or.inr (Or.inr ⟨old, apart⟩)

theorem insertEntry_ordered :
    (insertEntry key value entries).Pairwise (fun left right => left.1 < right.1) := by
  induction entries with
  | nil => simp [insertEntry]
  | cons head rest ih =>
      have headRest := List.pairwise_cons.mp ordered
      unfold insertEntry
      split
      · rename_i before
        refine List.pairwise_cons.mpr ⟨?_, ordered⟩
        intro other member
        rcases List.mem_cons.mp member with atHead | inRest
        · rw [atHead]; exact before
        · exact before.trans (headRest.1 other inRest)
      · split
        · rename_i same
          refine List.pairwise_cons.mpr ⟨?_, headRest.2⟩
          intro other member
          rw [same]
          exact headRest.1 other member
        · rename_i notBefore different
          have after : head.1 < key :=
            lt_of_le_of_ne (not_lt.mp notBefore) (fun equal => different equal.symm)
          refine List.pairwise_cons.mpr ⟨?_, ih headRest.2⟩
          intro other member
          rcases (mem_insertEntry headRest.2 other).mp member with fresh | ⟨old, _apart⟩
          · rw [fresh]; exact after
          · exact headRest.1 other old

theorem lookup_eq_some_iff :
    lookup key entries = some value ↔ (key, value) ∈ entries := by
  induction entries with
  | nil => simp [lookup]
  | cons head rest ih =>
      have headRest := List.pairwise_cons.mp ordered
      unfold lookup
      split
      · rename_i same
        subst same
        constructor
        · intro found
          exact List.mem_cons.mpr (Or.inl (Prod.ext rfl (Option.some.inj found).symm))
        · intro member
          rcases List.mem_cons.mp member with atHead | inRest
          · rw [← atHead]
          · exact absurd (headRest.1 _ inRest) (lt_irrefl _)
      · rename_i different
        rw [ih headRest.2, List.mem_cons]
        constructor
        · intro inRest
          exact Or.inr inRest
        · rintro (atHead | inRest)
          · exact absurd (congrArg Prod.fst atHead).symm different
          · exact inRest

end

/-! ### Reads and writes -/

def empty : OrderedMap K V := ⟨[], List.Pairwise.nil⟩

instance : Inhabited (OrderedMap K V) := ⟨empty⟩

def get? (map : OrderedMap K V) (key : K) : Option V := lookup key map.entries

def set (map : OrderedMap K V) (key : K) (value : V) : OrderedMap K V :=
  ⟨insertEntry key value map.entries, insertEntry_ordered map.ordered⟩

def delete (map : OrderedMap K V) (key : K) : OrderedMap K V :=
  ⟨eraseEntry key map.entries, map.ordered.filter _⟩

instance [DecidableEq V] : DecidableEq (OrderedMap K V) := fun left right =>
  decidable_of_iff (left.entries = right.entries) (by
    constructor
    · intro same
      cases left
      cases right
      simp only at same
      subst same
      rfl
    · intro same
      rw [same])

theorem get?_eq_some_iff (map : OrderedMap K V) {key : K} {value : V} :
    map.get? key = some value ↔ (key, value) ∈ map.entries :=
  lookup_eq_some_iff map.ordered

@[simp] theorem get?_empty (key : K) : (empty : OrderedMap K V).get? key = none := rfl

@[simp] theorem entries_empty : (empty : OrderedMap K V).entries = [] := rfl

theorem mem_entries_set (map : OrderedMap K V) (key : K) (value : V) (entry : K × V) :
    entry ∈ (map.set key value).entries ↔
      entry = (key, value) ∨ (entry ∈ map.entries ∧ entry.1 ≠ key) :=
  mem_insertEntry map.ordered entry

theorem mem_entries_delete (map : OrderedMap K V) (key : K) (entry : K × V) :
    entry ∈ (map.delete key).entries ↔ entry ∈ map.entries ∧ entry.1 ≠ key := by
  simp [delete, eraseEntry]

theorem get?_set (map : OrderedMap K V) (key other : K) (value : V) :
    (map.set key value).get? other = if other = key then some value else map.get? other := by
  apply Option.ext
  intro found
  rw [get?_eq_some_iff, mem_entries_set]
  split
  · rename_i same
    subst same
    constructor
    · rintro (fresh | ⟨_old, apart⟩)
      · exact congrArg some (congrArg Prod.snd fresh).symm
      · exact absurd rfl apart
    · intro found
      exact Or.inl (Prod.ext rfl (Option.some.inj found).symm)
  · rename_i different
    rw [get?_eq_some_iff]
    constructor
    · rintro (fresh | ⟨old, _apart⟩)
      · exact absurd (congrArg Prod.fst fresh) different
      · exact old
    · intro old
      exact Or.inr ⟨old, different⟩

@[simp] theorem get?_set_self (map : OrderedMap K V) (key : K) (value : V) :
    (map.set key value).get? key = some value := by
  rw [get?_set, if_pos rfl]

theorem get?_set_of_ne (map : OrderedMap K V) {key other : K} (value : V)
    (different : other ≠ key) : (map.set key value).get? other = map.get? other := by
  rw [get?_set, if_neg different]

theorem get?_delete (map : OrderedMap K V) (key other : K) :
    (map.delete key).get? other = if other = key then none else map.get? other := by
  apply Option.ext
  intro found
  rw [get?_eq_some_iff, mem_entries_delete]
  split
  · rename_i same
    simp [same]
  · rename_i different
    rw [get?_eq_some_iff]
    exact and_iff_left different

@[simp] theorem get?_delete_self (map : OrderedMap K V) (key : K) :
    (map.delete key).get? key = none := by
  rw [get?_delete, if_pos rfl]

theorem get?_delete_of_ne (map : OrderedMap K V) {key other : K}
    (different : other ≠ key) : (map.delete key).get? other = map.get? other := by
  rw [get?_delete, if_neg different]

/-- Two strictly ordered lists with the same members are the same list, so a
map is determined by its point reads. -/
theorem ext_get? {left right : OrderedMap K V}
    (same : ∀ key, left.get? key = right.get? key) : left = right := by
  have members : ∀ entry, entry ∈ left.entries ↔ entry ∈ right.entries := by
    rintro ⟨key, value⟩
    rw [← get?_eq_some_iff, ← get?_eq_some_iff, same key]
  have distinct : ∀ map : OrderedMap K V, map.entries.Nodup := fun map =>
    map.ordered.imp (fun {first second} less equal => by
      rw [equal] at less
      exact lt_irrefl _ less)
  have shuffled : left.entries.Perm right.entries :=
    (List.perm_ext_iff_of_nodup (distinct left) (distinct right)).mpr members
  have listEq : left.entries = right.entries := by
    refine List.Perm.eq_of_pairwise ?_ left.ordered right.ordered shuffled
    intro first second _inLeft _inRight forward backward
    exact absurd (forward.trans backward) (lt_irrefl _)
  cases left
  cases right
  simp only at listEq
  subst listEq
  rfl

/-! ### Updates of existing entries -/

/-- Rewrite the value under a key that is present; nothing happens otherwise. -/
def modify (map : OrderedMap K V) (key : K) (change : V → V) : OrderedMap K V :=
  match map.get? key with
  | some value => map.set key (change value)
  | none => map

theorem get?_modify (map : OrderedMap K V) (key other : K) (change : V → V) :
    (map.modify key change).get? other =
      if other = key then (map.get? key).map change else map.get? other := by
  unfold modify
  cases found : map.get? key with
  | none =>
      simp only [Option.map_none]
      split
      · rename_i same
        rw [same, found]
      · rfl
  | some value =>
      simp only [Option.map_some]
      exact get?_set map key other (change value)

@[simp] theorem get?_modify_self (map : OrderedMap K V) (key : K) (change : V → V) :
    (map.modify key change).get? key = (map.get? key).map change := by
  rw [get?_modify, if_pos rfl]

theorem get?_modify_of_ne (map : OrderedMap K V) {key other : K} (change : V → V)
    (different : other ≠ key) : (map.modify key change).get? other = map.get? other := by
  rw [get?_modify, if_neg different]

/-- Write a value, or drop its key if the value is the one a missing key stands
for. -/
def setUnless [DecidableEq V] (map : OrderedMap K V) (missing : V) (key : K) (value : V) :
    OrderedMap K V :=
  if value = missing then map.delete key else map.set key value

theorem getD_setUnless [DecidableEq V] (map : OrderedMap K V) (missing : V) (key other : K)
    (value : V) :
    ((map.setUnless missing key value).get? other).getD missing =
      if other = key then value else (map.get? other).getD missing := by
  unfold setUnless
  by_cases same : other = key
  · rw [if_pos same, same]
    split
    · rename_i empty
      rw [get?_delete_self, empty]
      rfl
    · rw [get?_set_self]
      rfl
  · rw [if_neg same]
    split
    · rw [get?_delete_of_ne _ same]
    · rw [get?_set_of_ne _ _ same]

theorem get?_setUnless_ne [DecidableEq V] (map : OrderedMap K V) {missing : V}
    (never : ∀ key, map.get? key ≠ some missing) (key other : K) (value : V) :
    (map.setUnless missing key value).get? other ≠ some missing := by
  unfold setUnless
  split
  · rw [get?_delete]
    split
    · exact nofun
    · exact never other
  · rename_i some
    rw [get?_set]
    split
    · intro same
      exact some (Option.some.inj same)
    · exact never other

def mapValues (map : OrderedMap K V) (change : K → V → V) : OrderedMap K V :=
  ⟨map.entries.map (fun entry => (entry.1, change entry.1 entry.2)),
    List.pairwise_map.mpr map.ordered⟩

theorem get?_mapValues (map : OrderedMap K V) (change : K → V → V) (key : K) :
    (map.mapValues change).get? key = (map.get? key).map (change key) := by
  apply Option.ext
  intro found
  rw [get?_eq_some_iff, Option.map_eq_some_iff]
  constructor
  · intro member
    obtain ⟨entry, present, same⟩ := List.mem_map.mp member
    have keyEq : entry.1 = key := congrArg Prod.fst same
    have valueEq : change entry.1 entry.2 = found := congrArg Prod.snd same
    subst keyEq
    exact ⟨entry.2, (map.get?_eq_some_iff).mpr present, valueEq⟩
  · rintro ⟨value, present, same⟩
    subst same
    exact List.mem_map.mpr ⟨(key, value), (map.get?_eq_some_iff).mp present, rfl⟩

def keep (map : OrderedMap K V) (accept : K → V → Bool) : OrderedMap K V :=
  ⟨map.entries.filter (fun entry => accept entry.1 entry.2), map.ordered.filter _⟩

theorem get?_keep (map : OrderedMap K V) (accept : K → V → Bool) (key : K) :
    (map.keep accept).get? key = (map.get? key).filter (accept key) := by
  apply Option.ext
  intro found
  rw [get?_eq_some_iff, Option.filter_eq_some_iff, get?_eq_some_iff]
  simp [keep]

def deleteAll (map : OrderedMap K V) (keys : List K) : OrderedMap K V :=
  keys.foldl delete map

theorem get?_deleteAll (map : OrderedMap K V) (keys : List K) (other : K) :
    (map.deleteAll keys).get? other = if other ∈ keys then none else map.get? other := by
  induction keys generalizing map with
  | nil => simp [deleteAll]
  | cons key rest ih =>
      change ((map.delete key).deleteAll rest).get? other = _
      rw [ih, get?_delete]
      by_cases inRest : other ∈ rest
      · simp [inRest]
      · by_cases same : other = key
        · simp [same]
        · simp [inRest, same]

/-! ### Scans -/

/-- The entries from `lower` inclusive to `upper` exclusive, in key order. -/
def range (map : OrderedMap K V) (lower upper : K) : List (K × V) :=
  map.entries.filter (fun entry => lower ≤ entry.1 ∧ entry.1 < upper)

theorem mem_range (map : OrderedMap K V) (lower upper : K) (entry : K × V) :
    entry ∈ map.range lower upper ↔
      entry ∈ map.entries ∧ lower ≤ entry.1 ∧ entry.1 < upper := by
  simp [range]

theorem range_ordered (map : OrderedMap K V) (lower upper : K) :
    (map.range lower upper).Pairwise (fun left right => left.1 < right.1) :=
  map.ordered.filter _

theorem le_of_range_getLast? (map : OrderedMap K V) {lower upper : K} {final entry : K × V}
    (atEnd : (map.range lower upper).getLast? = some final)
    (member : entry ∈ map.range lower upper) : entry.1 ≤ final.1 := by
  have increasing := map.range_ordered lower upper
  obtain ⟨front, split⟩ := List.getLast?_eq_some_iff.mp atEnd
  rw [split] at member increasing
  rcases List.mem_append.mp member with early | atLast
  · exact le_of_lt ((List.pairwise_append.mp increasing).2.2 entry early final
      (List.mem_singleton.mpr rfl))
  · rw [List.mem_singleton.mp atLast]

private theorem insertEntry_keys {key : K} {value old : V} {entries : List (K × V)}
    (ordered : entries.Pairwise (fun left right => left.1 < right.1))
    (present : (key, old) ∈ entries) :
    (insertEntry key value entries).map Prod.fst = entries.map Prod.fst := by
  induction entries with
  | nil => cases present
  | cons head rest ih =>
      have headRest := List.pairwise_cons.mp ordered
      unfold insertEntry
      rcases List.mem_cons.mp present with atHead | inRest
      · subst atHead
        rw [if_neg (lt_irrefl key), if_pos rfl]
        rfl
      · have later : head.1 < key := headRest.1 _ inRest
        rw [if_neg (not_lt_of_gt later), if_neg (ne_of_gt later), List.map_cons, List.map_cons,
          ih headRest.2 inRest]

theorem range_keys_set (map : OrderedMap K V) {key : K} (value : V)
    (present : (map.get? key).isSome) (lower upper : K) :
    ((map.set key value).range lower upper).map Prod.fst =
      (map.range lower upper).map Prod.fst := by
  obtain ⟨old, found⟩ := Option.isSome_iff_exists.mp present
  have keys : (insertEntry key value map.entries).map Prod.fst = map.entries.map Prod.fst :=
    insertEntry_keys map.ordered (map.get?_eq_some_iff.mp found)
  have push : ∀ entries : List (K × V),
      (entries.filter (fun entry => lower ≤ entry.1 ∧ entry.1 < upper)).map Prod.fst =
        (entries.map Prod.fst).filter (fun other => lower ≤ other ∧ other < upper) :=
    fun entries => by rw [List.filter_map]; rfl
  unfold range
  rw [push, push]
  exact congrArg _ keys

private theorem filter_insertEntry {key : K} {value : V} (accept : K → Bool)
    (refused : accept key = false) (entries : List (K × V)) :
    (insertEntry key value entries).filter (fun entry => accept entry.1) =
      entries.filter (fun entry => accept entry.1) := by
  induction entries with
  | nil => simp [insertEntry, refused]
  | cons head rest ih =>
      unfold insertEntry
      split
      · rw [List.filter_cons_of_neg (by simp [refused])]
      · split
        · rename_i same
          rw [List.filter_cons_of_neg (by simp [refused]),
            List.filter_cons_of_neg (by simp [← same, refused])]
        · rw [List.filter_cons, List.filter_cons, ih]

theorem range_set_outside (map : OrderedMap K V) {key : K} (value : V) {lower upper : K}
    (outside : ¬ (lower ≤ key ∧ key < upper)) :
    (map.set key value).range lower upper = map.range lower upper :=
  filter_insertEntry (fun other => lower ≤ other ∧ other < upper)
    (decide_eq_false outside) map.entries

theorem entries_set_last (map : OrderedMap K V) {key : K} (value : V)
    (last : ∀ entry ∈ map.entries, entry.1 < key) :
    (map.set key value).entries = map.entries ++ [(key, value)] := by
  change insertEntry key value map.entries = _
  generalize map.entries = entries at last ⊢
  induction entries with
  | nil => rfl
  | cons head rest ih =>
      have here := last head List.mem_cons_self
      unfold insertEntry
      rw [if_neg (not_lt_of_gt here), if_neg (ne_of_gt here),
        ih (fun entry member => last entry (List.mem_cons_of_mem _ member))]
      rfl

def count (map : OrderedMap K V) (accept : K × V → Bool) : Nat :=
  map.entries.countP accept

theorem insertEntry_perm {key : K} {value : V} {entries : List (K × V)}
    (ordered : entries.Pairwise (fun left right => left.1 < right.1)) :
    (insertEntry key value entries).Perm ((key, value) :: eraseEntry key entries) := by
  have orderedNew := @insertEntry_ordered K V _ key value entries ordered
  have distinct : ∀ {items : List (K × V)},
      items.Pairwise (fun left right => left.1 < right.1) → items.Nodup :=
    fun increasing => increasing.imp (fun {first second} less equal => by
      rw [equal] at less
      exact lt_irrefl _ less)
  have absent : (key, value) ∉ eraseEntry key entries := by simp [eraseEntry]
  refine (List.perm_ext_iff_of_nodup (distinct orderedNew)
    (List.nodup_cons.mpr ⟨absent, distinct (ordered.filter _)⟩)).mpr ?_
  intro entry
  rw [mem_insertEntry ordered, List.mem_cons]
  simp [eraseEntry]

theorem count_set (map : OrderedMap K V) (key : K) (value : V) (accept : K × V → Bool) :
    (map.set key value).count accept =
      (map.delete key).count accept + if accept (key, value) then 1 else 0 := by
  change (insertEntry key value map.entries).countP accept = _
  rw [(insertEntry_perm map.ordered).countP_eq accept, List.countP_cons]
  rfl

theorem delete_eq_self (map : OrderedMap K V) {key : K} (missing : map.get? key = none) :
    map.delete key = map := by
  apply ext_get?
  intro other
  rw [get?_delete]
  split
  · rename_i same
    rw [same, missing]
  · rfl

theorem set_delete (map : OrderedMap K V) {key : K} {value : V}
    (present : map.get? key = some value) : map.set key value = map := by
  apply ext_get?
  intro other
  rw [get?_set]
  split
  · rename_i same
    rw [same, present]
  · rfl

theorem count_delete_of_some (map : OrderedMap K V) {key : K} {value : V}
    (accept : K × V → Bool) (present : map.get? key = some value) :
    map.count accept =
      (map.delete key).count accept + if accept (key, value) then 1 else 0 := by
  have restored := map.set_delete present
  calc map.count accept = (map.set key value).count accept := by rw [restored]
    _ = _ := map.count_set key value accept

theorem count_delete_of_none (map : OrderedMap K V) {key : K} (accept : K × V → Bool)
    (missing : map.get? key = none) : (map.delete key).count accept = map.count accept := by
  rw [delete_eq_self map missing]

end OrderedMap

/-! ### Scans of an ordered list -/

theorem takeWhile_eq_filter {Item : Type} {keep : Item → Bool} {items : List Item}
    (down : items.Pairwise fun left right => keep right = true → keep left = true) :
    items.takeWhile keep = items.filter keep ∧
      items.dropWhile keep = items.filter fun item => !keep item := by
  induction items with
  | nil => exact ⟨rfl, rfl⟩
  | cons first rest ih =>
      obtain ⟨before, later⟩ := List.pairwise_cons.mp down
      by_cases kept : keep first = true
      · rw [List.takeWhile_cons_of_pos kept, List.dropWhile_cons_of_pos kept,
          List.filter_cons_of_pos kept, List.filter_cons_of_neg (by simp [kept]),
          (ih later).1, (ih later).2]
        exact ⟨rfl, rfl⟩
      · have none : ∀ item ∈ rest, ¬ keep item = true := fun item member held =>
          kept (before item member held)
        rw [List.takeWhile_cons_of_neg kept, List.dropWhile_cons_of_neg kept,
          List.filter_cons_of_neg kept, List.filter_cons_of_pos (by simp [kept]),
          List.filter_eq_nil_iff.mpr none]
        refine ⟨rfl, ?_⟩
        rw [List.filter_eq_self.mpr fun item member => by simp [none item member]]

theorem filterMap_filter_of {Item Value : Type} {keep : Item → Bool}
    {read : Item → Option Value} (items : List Item)
    (kept : ∀ item ∈ items, read item ≠ none → keep item = true) :
    (items.filter keep).filterMap read = items.filterMap read := by
  induction items with
  | nil => rfl
  | cons first rest ih =>
      have later := ih fun item member => kept item (List.mem_cons_of_mem _ member)
      by_cases here : keep first = true
      · rw [List.filter_cons_of_pos here, List.filterMap_cons, List.filterMap_cons, later]
      · have none : read first = none := by
          by_contra some
          exact here (kept first List.mem_cons_self some)
        rw [List.filter_cons_of_neg here, List.filterMap_cons, none, later]

end Pttbbs.Lib
