/-
Lists of references by a tag.

The references with one tag are in a list under it, in no order that matters: one is taken out by
putting the last into its place.  A list goes with its last reference.
-/

import Pttbbs.Lib.Shelf

namespace Pttbbs.Lib

section SwapRemove

variable {Ref : Type} [DecidableEq Ref]

/-- The last of a list is put into the place of a reference, and the list made shorter by one. -/
def swapRemove (list : List Ref) (ref : Ref) : List Ref :=
  match list.idxOf? ref with
  | none => list
  | some place => (list.set place (list.getLast?.getD ref)).dropLast

theorem swapRemove_perm {list : List Ref} {ref : Ref} (member : ref ∈ list) :
    (swapRemove list ref).Perm (list.erase ref) := by
  obtain ⟨front, back, rfl, absent⟩ := List.eq_append_cons_of_mem member
  have place : (front ++ ref :: back).idxOf? ref = some front.length := by
    rw [List.idxOf?_eq_some_iff]
    refine ⟨by simp, by simp, fun i less => ?_⟩
    rw [List.getElem_append_left less]
    intro same
    exact absent (same ▸ List.getElem_mem less)
  rw [swapRemove, place, List.erase_append_right _ absent, List.erase_cons_head]
  dsimp only
  rcases List.eq_nil_or_concat' back with rfl | ⟨middle, last, rfl⟩
  · simp
  · have moved : (front ++ ref :: (middle ++ [last])).set front.length last =
        (front ++ last :: middle) ++ [last] := by
      simp
    have final : (front ++ ref :: (middle ++ [last])).getLast?.getD ref = last := by
      rw [← List.cons_append, ← List.append_assoc, List.getLast?_concat]
      rfl
    rw [final, moved, List.dropLast_concat]
    refine List.Perm.append_left front ?_
    exact (List.perm_append_singleton last middle).symm

end SwapRemove

namespace TagLists

variable {Tag Ref : Type} [DecidableEq Tag]

def under (lists : KeyMap Tag (List Ref)) (tag : Tag) : List Ref := (lists.lookup tag).getD []

def add (lists : KeyMap Tag (List Ref)) (tag : Tag) (ref : Ref) : KeyMap Tag (List Ref) :=
  lists.insert tag (under lists tag ++ [ref])

def drop [DecidableEq Ref] (lists : KeyMap Tag (List Ref)) (tag : Tag) (ref : Ref) :
    KeyMap Tag (List Ref) :=
  if 0 < (under lists tag).length then
    if (swapRemove (under lists tag) ref).length = 0 then lists.erase tag
    else lists.insert tag (swapRemove (under lists tag) ref)
  else lists

/-- Every list holds the references with its tag once each, and no list is empty. -/
structure Sound (lists : KeyMap Tag (List Ref)) (tagged : Ref → Tag → Prop) : Prop where
  listed : ∀ tag ref, ref ∈ under lists tag ↔ tagged ref tag
  once : ∀ tag, (under lists tag).Nodup
  pruned : ∀ tag list, lists.lookup tag = some list → list ≠ []

variable {lists : KeyMap Tag (List Ref)} {tagged : Ref → Tag → Prop}

theorem Sound.of_empty (nothing : ∀ ref tag, ¬ tagged ref tag) :
    Sound (∅ : KeyMap Tag (List Ref)) tagged where
  listed := fun tag ref => iff_of_false (fun impossible => List.not_mem_nil impossible)
    (nothing ref tag)
  once := fun _ => List.nodup_nil
  pruned := fun _ _ impossible => by cases impossible

theorem Sound.congr (sound : Sound lists tagged) {other : Ref → Tag → Prop}
    (same : ∀ ref tag, tagged ref tag ↔ other ref tag) : Sound lists other :=
  ⟨fun tag ref => (sound.listed tag ref).trans (same ref tag), sound.once, sound.pruned⟩

theorem under_insert (tag other : Tag) (list : List Ref) :
    under (lists.insert tag list) other = if other = tag then list else under lists other := by
  unfold under
  rw [KeyMap.lookup_insert_eq]
  split <;> rfl

theorem under_erase (tag other : Tag) :
    under (lists.erase tag) other = if other = tag then [] else under lists other := by
  unfold under
  rw [KeyMap.lookup_erase_eq]
  split <;> rfl

theorem Sound.add (sound : Sound lists tagged) {tag : Tag} {ref : Ref} (new : ¬ tagged ref tag) :
    Sound (add lists tag ref) fun other name => tagged other name ∨ other = ref ∧ name = tag := by
  refine ⟨fun name other => ?_, fun name => ?_, fun name list found => ?_⟩
  · rw [TagLists.add, under_insert]
    split
    · rename_i same
      rw [List.mem_append, List.mem_singleton, sound.listed, same, and_iff_left rfl]
    · rename_i differ
      rw [sound.listed]
      exact (or_iff_left fun both => differ both.2).symm
  · rw [TagLists.add, under_insert]
    split
    · refine List.Nodup.append (sound.once tag) (List.nodup_singleton ref) ?_
      rw [List.disjoint_singleton]
      exact fun member => new ((sound.listed tag ref).mp member)
    · exact sound.once name
  · rw [TagLists.add, KeyMap.lookup_insert_eq] at found
    split at found
    · rw [← Option.some.inj found]
      simp
    · exact sound.pruned name list found

theorem Sound.drop [DecidableEq Ref] (sound : Sound lists tagged) {tag : Tag} {ref : Ref}
    (present : tagged ref tag) :
    Sound (drop lists tag ref) fun other name => tagged other name ∧ ¬ (other = ref ∧ name = tag) := by
  have member : ref ∈ under lists tag := (sound.listed tag ref).mpr present
  have same := swapRemove_perm member
  have rest : ∀ name, under (TagLists.drop lists tag ref) name =
      if name = tag then swapRemove (under lists tag) ref else under lists name := by
    intro name
    rw [TagLists.drop, if_pos (List.length_pos_of_mem member)]
    split
    · rename_i none
      rw [under_erase, List.eq_nil_of_length_eq_zero none]
    · rw [under_insert]
  refine ⟨fun name other => ?_, fun name => ?_, fun name list found => ?_⟩
  · rw [rest]
    split
    · rename_i here
      rw [same.mem_iff, (sound.once tag).mem_erase_iff, sound.listed, here]
      tauto
    · rename_i differ
      rw [sound.listed]
      exact (and_iff_left fun both => differ both.2).symm
  · rw [rest]
    split
    · exact same.nodup_iff.mpr ((sound.once tag).erase ref)
    · exact sound.once name
  · rw [TagLists.drop, if_pos (List.length_pos_of_mem member)] at found
    split at found
    · rw [KeyMap.lookup_erase_eq] at found
      split at found
      · cases found
      · exact sound.pruned name list found
    · rename_i some'
      rw [KeyMap.lookup_insert_eq] at found
      split at found
      · rw [← Option.some.inj found]
        exact fun none => some' (by rw [none]; rfl)
      · exact sound.pruned name list found

end TagLists

end Pttbbs.Lib
