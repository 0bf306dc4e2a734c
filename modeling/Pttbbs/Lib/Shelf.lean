/-
Stores whose entries are filed three times.

An entry lies under its key, again under its key in the map of its group, and at a place of a list
that is in the order of last use.  The map of a group goes with its last entry.
-/

import Mathlib.Data.List.AList
import Mathlib.Data.List.Nodup
import Mathlib.Data.List.Perm.Basic

namespace Pttbbs.Lib

abbrev KeyMap (Key Value : Type) := AList fun _ : Key => Value

namespace KeyMap

variable {Key Value : Type}

def size (entries : KeyMap Key Value) : Nat := entries.keys.length

def values (entries : KeyMap Key Value) : List Value := entries.entries.map Sigma.snd

theorem eq_empty_of_size {entries : KeyMap Key Value} (none : entries.size = 0) : entries = ∅ := by
  refine AList.ext (List.eq_nil_of_length_eq_zero ?_)
  rw [size, AList.keys, List.keys, List.length_map] at none
  exact none

variable [DecidableEq Key]

theorem mem_values {entries : KeyMap Key Value} {value : Value} :
    value ∈ entries.values ↔ ∃ key, entries.lookup key = some value := by
  rw [values, List.mem_map]
  constructor
  · rintro ⟨⟨key, _⟩, member, rfl⟩
    exact ⟨key, AList.mem_lookup_iff.mpr member⟩
  · rintro ⟨key, found⟩
    exact ⟨⟨key, value⟩, AList.mem_lookup_iff.mp found, rfl⟩

theorem lookup_erase_eq (entries : KeyMap Key Value) (key other : Key) :
    (entries.erase key).lookup other = if other = key then none else entries.lookup other := by
  split
  · rename_i same
    rw [same, AList.lookup_erase]
  · rename_i differ
    exact AList.lookup_erase_ne differ

theorem lookup_insert_eq (entries : KeyMap Key Value) (key other : Key) (value : Value) :
    (entries.insert key value).lookup other =
      if other = key then some value else entries.lookup other := by
  split
  · rename_i same
    rw [same, AList.lookup_insert]
  · rename_i differ
    exact AList.lookup_insert_ne differ

theorem values_nodup {entries : KeyMap Key Value} {key : Value → Key}
    (keyed : ∀ place value, entries.lookup place = some value → key value = place) :
    entries.values.Nodup := by
  have keys : entries.values.map key = entries.keys := by
    rw [values, List.map_map, AList.keys, List.keys]
    refine List.map_congr_left fun entry member => ?_
    exact keyed entry.1 entry.2 (AList.mem_lookup_iff.mpr member)
  exact List.Nodup.of_map key (keys ▸ entries.keys_nodup)

end KeyMap

structure Shelf (Key Group Ref : Type) where
  entries : KeyMap Key Ref
  byGroup : KeyMap Group (KeyMap Key Ref)
  lru : List Ref

namespace Shelf

variable {Key Group Ref : Type} [DecidableEq Key] [DecidableEq Group]

def empty : Shelf Key Group Ref := ⟨∅, ∅, []⟩

def filed (shelf : Shelf Key Group Ref) (group : Group) (key : Key) : Option Ref :=
  (shelf.byGroup.lookup group).bind fun entries => entries.lookup key

def remove [DecidableEq Ref] (group : Key → Group) (key : Ref → Key) (shelf : Shelf Key Group Ref) (ref : Ref) :
    Shelf Key Group Ref where
  entries := shelf.entries.erase (key ref)
  byGroup :=
    match shelf.byGroup.lookup (group (key ref)) with
    | none => shelf.byGroup
    | some entries =>
        if (KeyMap.size (entries.erase (key ref))) = 0 then
          shelf.byGroup.erase (group (key ref))
        else shelf.byGroup.insert (group (key ref)) (entries.erase (key ref))
  lru := shelf.lru.erase ref

def push (group : Key → Group) (key : Ref → Key) (shelf : Shelf Key Group Ref) (ref : Ref) :
    Shelf Key Group Ref where
  entries := shelf.entries.insert (key ref) ref
  byGroup := shelf.byGroup.insert (group (key ref))
    (((shelf.byGroup.lookup (group (key ref))).getD ∅).insert (key ref) ref)
  lru := ref :: shelf.lru

def touch [DecidableEq Ref] (shelf : Shelf Key Group Ref) (ref : Ref) : Shelf Key Group Ref :=
  { shelf with lru := ref :: shelf.lru.erase ref }

/-- The entries lie under their keys, in the maps of their groups and in the list, once each, and
no map of a group is empty. -/
structure Sound (group : Key → Group) (key : Ref → Key) (shelf : Shelf Key Group Ref) : Prop where
  keyed : ∀ place ref, shelf.entries.lookup place = some ref → key ref = place
  listed : ∀ ref, ref ∈ shelf.lru ↔ shelf.entries.lookup (key ref) = some ref
  once : shelf.lru.Nodup
  grouped : ∀ name place, shelf.filed name place =
    if group place = name then shelf.entries.lookup place else none
  pruned : ∀ name entries, shelf.byGroup.lookup name = some entries → entries ≠ ∅

section Sound

variable {group : Key → Group} {key : Ref → Key} {shelf : Shelf Key Group Ref}

theorem Sound.of_empty : Sound group key (empty : Shelf Key Group Ref) where
  keyed := fun _ _ impossible => by cases impossible
  listed := fun _ => ⟨fun impossible => (List.not_mem_nil impossible).elim,
    fun impossible => by cases impossible⟩
  once := List.nodup_nil
  grouped := fun _ _ => by
    split <;> rfl
  pruned := fun _ _ impossible => by cases impossible

theorem filed_push (ref : Ref) (name : Group) (place : Key) :
    (shelf.push group key ref).filed name place =
      if name = group (key ref) ∧ place = key ref then some ref else shelf.filed name place := by
  unfold filed push
  dsimp only
  by_cases here : name = group (key ref)
  · subst here
    rw [AList.lookup_insert, Option.bind_some, KeyMap.lookup_insert_eq]
    by_cases same : place = key ref
    · rw [if_pos same, if_pos ⟨rfl, same⟩]
    · rw [if_neg same, if_neg fun both => same both.2]
      cases shelf.byGroup.lookup (group (key ref)) <;> rfl
  · rw [if_neg fun both => here both.1, AList.lookup_insert_ne here]

theorem Sound.eq_of_key (sound : Sound group key shelf) {left right : Ref}
    (first : left ∈ shelf.lru) (second : right ∈ shelf.lru) (same : key left = key right) :
    left = right := by
  have found := (sound.listed left).mp first
  rw [same, (sound.listed right).mp second] at found
  exact (Option.some.inj found).symm

theorem Sound.congr (sound : Sound group key shelf) {other : Ref → Key}
    (same : ∀ ref ∈ shelf.lru, key ref = other ref) : Sound group other shelf := by
  have held : ∀ place ref, shelf.entries.lookup place = some ref → ref ∈ shelf.lru := by
    intro place ref found
    exact (sound.listed ref).mpr (sound.keyed place ref found ▸ found)
  refine ⟨fun place ref found => ?_, fun ref => ⟨fun member => ?_, fun found => held _ ref found⟩,
    sound.once, sound.grouped, sound.pruned⟩
  · rw [← same ref (held place ref found)]
    exact sound.keyed place ref found
  · rw [← same ref member]
    exact (sound.listed ref).mp member

theorem Sound.push (sound : Sound group key shelf) {ref : Ref}
    (free : shelf.entries.lookup (key ref) = none) :
    Sound group key (shelf.push group key ref) := by
  have found : ∀ place, (shelf.push group key ref).entries.lookup place =
      if place = key ref then some ref else shelf.entries.lookup place :=
    fun place => KeyMap.lookup_insert_eq shelf.entries (key ref) place ref
  have absent : ref ∉ shelf.lru := by
    intro member
    rw [(sound.listed ref).mp member] at free
    cases free
  constructor
  · intro place other here
    rw [found] at here
    split at here
    · rename_i same
      rw [← Option.some.inj here, same]
    · exact sound.keyed place other here
  · intro other
    change other ∈ ref :: shelf.lru ↔ _
    rw [List.mem_cons, found, sound.listed]
    split
    · rename_i same
      rw [same, free]
      constructor
      · rintro (rfl | impossible)
        · rfl
        · cases impossible
      · exact fun here => .inl (Option.some.inj here).symm
    · rename_i differ
      exact or_iff_right fun same => differ (congrArg key same)
  · exact List.nodup_cons.mpr ⟨absent, sound.once⟩
  · intro name place
    rw [filed_push, found, sound.grouped]
    by_cases same : place = key ref
    · subst same
      rw [if_pos rfl, free, ite_self]
      by_cases here : name = group (key ref)
      · rw [if_pos ⟨here, rfl⟩, if_pos here.symm]
      · rw [if_neg fun both => here both.1, if_neg (Ne.symm here)]
    · rw [if_neg fun both => same both.2, if_neg same]
  · intro name entries here
    change (shelf.byGroup.insert _ _).lookup name = some entries at here
    rw [KeyMap.lookup_insert_eq] at here
    split at here
    · rw [← Option.some.inj here]
      intro none
      have present : (AList.lookup (key ref) (∅ : KeyMap Key Ref)) = some ref := by
        rw [← none, AList.lookup_insert]
      cases present
    · exact sound.pruned name entries here

def groupRefs (shelf : Shelf Key Group Ref) (name : Group) : List Ref :=
  ((shelf.byGroup.lookup name).map KeyMap.values).getD []

theorem Sound.mem_groupRefs (sound : Sound group key shelf) {name : Group} {ref : Ref} :
    ref ∈ shelf.groupRefs name ↔ ref ∈ shelf.lru ∧ group (key ref) = name := by
  have filed : ref ∈ shelf.groupRefs name ↔ ∃ place, shelf.filed name place = some ref := by
    unfold groupRefs Shelf.filed
    cases shelf.byGroup.lookup name with
    | none => simp
    | some entries => exact KeyMap.mem_values
  rw [filed, sound.listed]
  constructor
  · rintro ⟨place, found⟩
    rw [sound.grouped] at found
    split at found
    · rename_i here
      have same := sound.keyed place ref found
      exact ⟨same ▸ found, same ▸ here⟩
    · cases found
  · rintro ⟨found, here⟩
    exact ⟨key ref, by rw [sound.grouped, if_pos here, found]⟩

theorem Sound.groupRefs_nodup (sound : Sound group key shelf) (name : Group) :
    (shelf.groupRefs name).Nodup := by
  unfold groupRefs
  cases found : shelf.byGroup.lookup name with
  | none => exact List.nodup_nil
  | some entries =>
      refine @KeyMap.values_nodup _ _ _ entries key fun place ref here => ?_
      have filed : shelf.filed name place = some ref := by
        rw [filed, found]
        exact here
      rw [sound.grouped] at filed
      split at filed
      · exact sound.keyed place ref filed
      · cases filed

theorem Sound.mem_values (sound : Sound group key shelf) {ref : Ref} :
    ref ∈ shelf.entries.values ↔ ref ∈ shelf.lru := by
  rw [KeyMap.mem_values, sound.listed]
  constructor
  · rintro ⟨place, found⟩
    exact (sound.keyed place ref found) ▸ found
  · exact fun found => ⟨_, found⟩

theorem Sound.values_nodup (sound : Sound group key shelf) : shelf.entries.values.Nodup :=
  KeyMap.values_nodup sound.keyed

variable [DecidableEq Ref]

theorem filed_remove (ref : Ref) (name : Group) (place : Key) :
    (shelf.remove group key ref).filed name place =
      if name = group (key ref) ∧ place = key ref then none else shelf.filed name place := by
  unfold filed remove
  dsimp only
  cases found : shelf.byGroup.lookup (group (key ref)) with
  | none =>
      dsimp only
      split
      · rename_i both
        rw [both.1, found]
        rfl
      · rfl
  | some entries =>
      dsimp only
      have rest : (entries.erase (key ref)).lookup place =
          if place = key ref then none else entries.lookup place :=
        KeyMap.lookup_erase_eq entries (key ref) place
      by_cases here : name = group (key ref)
      · subst here
        rw [found, Option.bind_some]
        split
        · rename_i none
          rw [KeyMap.eq_empty_of_size none, AList.lookup_empty] at rest
          rw [AList.lookup_erase, Option.bind_none]
          by_cases same : place = key ref
          · rw [if_pos ⟨rfl, same⟩]
          · rw [if_neg fun both => same both.2, rest, if_neg same]
        · rw [AList.lookup_insert, Option.bind_some, rest]
          by_cases same : place = key ref
          · rw [if_pos same, if_pos ⟨rfl, same⟩]
          · rw [if_neg same, if_neg fun both => same both.2]
      · rw [if_neg (fun both => here both.1 : ¬ (name = group (key ref) ∧ place = key ref))]
        split
        · rw [AList.lookup_erase_ne here]
        · rw [AList.lookup_insert_ne here]

theorem pruned_remove (pruned : ∀ name entries, shelf.byGroup.lookup name = some entries →
    entries ≠ ∅) (ref : Ref) (name : Group) (entries : KeyMap Key Ref)
    (found : (shelf.remove group key ref).byGroup.lookup name = some entries) : entries ≠ ∅ := by
  unfold remove at found
  dsimp only at found
  split at found
  · exact pruned name entries found
  · rename_i before _
    by_cases here : name = group (key ref)
    · subst here
      split at found
      · rw [AList.lookup_erase] at found
        cases found
      · rename_i some'
        rw [AList.lookup_insert] at found
        obtain rfl := Option.some.inj found
        intro none
        rw [none] at some'
        exact some' rfl
    · split at found
      · rw [AList.lookup_erase_ne here] at found
        exact pruned name entries found
      · rw [AList.lookup_insert_ne here] at found
        exact pruned name entries found

theorem Sound.remove (sound : Sound group key shelf) {ref : Ref} (member : ref ∈ shelf.lru) :
    Sound group key (shelf.remove group key ref) := by
  have found : ∀ place, (shelf.remove group key ref).entries.lookup place =
      if place = key ref then none else shelf.entries.lookup place :=
    KeyMap.lookup_erase_eq shelf.entries (key ref)
  constructor
  · intro place other here
    rw [found] at here
    split at here
    · cases here
    · exact sound.keyed place other here
  · intro other
    change other ∈ shelf.lru.erase ref ↔ _
    rw [sound.once.mem_erase_iff, found]
    split
    · rename_i same
      exact iff_of_false (fun both => both.1 (sound.eq_of_key both.2 member same)) (by simp)
    · rename_i differ
      rw [sound.listed]
      exact and_iff_right fun same => differ (congrArg key same)
  · exact sound.once.erase ref
  · intro name place
    rw [filed_remove, found, sound.grouped]
    by_cases same : place = key ref
    · subst same
      rw [if_pos rfl]
      split
      · rw [ite_self]
      · rename_i other
        rw [if_neg fun here => other ⟨here.symm, rfl⟩, ite_self]
    · rw [if_neg fun both => same both.2, if_neg same]
  · exact pruned_remove sound.pruned ref

theorem Sound.touch (sound : Sound group key shelf) {ref : Ref} (member : ref ∈ shelf.lru) :
    Sound group key (shelf.touch ref) := by
  have same : (ref :: shelf.lru.erase ref).Perm shelf.lru := (List.perm_cons_erase member).symm
  exact ⟨sound.keyed, fun other => same.mem_iff.trans (sound.listed other),
    same.nodup_iff.mpr sound.once, sound.grouped, sound.pruned⟩

end Sound

end Shelf

end Pttbbs.Lib
