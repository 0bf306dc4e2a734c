/-
The caches of the search service after any calls.

Every call keeps the places of the entries in step with each other, the sum of the lengths exact and
the lists by record complete, and a put ends within the limits or with one entry.
-/

import Mathlib.Algebra.BigOperators.Group.List.Basic
import Mathlib.Data.List.Dedup
import Pttbbs.SearchSvc.Caches

namespace Pttbbs.SearchSvc.Caches

open Pttbbs.Lib

/-! ### Searches -/

namespace Searches

def lengths (heap : Ref → CacheEntry) (refs : List Ref) : Nat :=
  (refs.map fun e => (heap e).indices.length).sum

/-- The searches lie in all their places, and the sum of their lengths is exact. -/
structure WellFormed (s : Searches) : Prop where
  places : s.shelf.Sound CacheKey.direct s.keyOf
  total : s.totalIndices = lengths s.heap s.shelf.lru

def WithinLimits (maxEntries maxIndices : Int) (s : Searches) : Prop :=
  (s.shelf.entries.size ≤ maxEntries ∧ s.totalIndices ≤ maxIndices) ∨ s.shelf.lru.length = 1

theorem lengths_erase (heap : Ref → CacheEntry) {refs : List Ref} {e : Ref} (member : e ∈ refs) :
    lengths heap refs = (heap e).indices.length + lengths heap (refs.erase e) :=
  (List.sum_map_erase _ member).symm

theorem lengths_congr {heap other : Ref → CacheEntry} {refs : List Ref}
    (same : ∀ e ∈ refs, heap e = other e) : lengths heap refs = lengths other refs := by
  refine congrArg List.sum (List.map_congr_left fun e member => ?_)
  rw [same e member]

section

variable {s : Searches} (formed : s.WellFormed)

include formed

theorem WellFormed.remove {e : Ref}
    (held : e ∈ s.shelf.lru) : (s.removeEntryLocked e).WellFormed := by
  have parts := lengths_erase s.heap held
  have total := formed.total
  refine ⟨formed.places.remove held, ?_⟩
  change (if s.totalIndices - (s.heap e).indices.length < 0 then 0
    else s.totalIndices - (s.heap e).indices.length) = (lengths s.heap (s.shelf.lru.erase e) : Int)
  rw [if_neg (by omega)]
  omega

theorem WellFormed.evict (some : s.shelf.lru ≠ []) :
    s.evict.WellFormed ∧ s.evict.WithinLimits s.maxEntries s.maxIndices := by
  induction s using Searches.evict.induct with
  | case1 s exceeding nothing =>
      exact absurd (List.getLast?_eq_none_iff.mp nothing) some
  | case2 s exceeding victim back ih =>
      have held := List.mem_of_getLast? back
      have rest : (s.shelf.lru.erase victim) ≠ [] := by
        apply List.ne_nil_of_length_pos
        rw [List.length_erase_of_mem held]
        omega
      have removed := formed.remove held
      rw [Searches.evict, if_pos exceeding]
      split
      · rename_i nothing
        rw [back] at nothing
        cases nothing
      · rename_i other found
        obtain rfl := Option.some.inj (back.symm.trans found)
        exact ih ⟨removed.places, removed.total⟩ rest
  | case3 s fits =>
      rw [Searches.evict, if_neg fits]
      refine ⟨formed, ?_⟩
      have positive := List.length_pos_iff.mpr some
      unfold WithinLimits
      omega

theorem WellFormed.push {e : Ref}
    (free : s.shelf.entries.lookup (s.keyOf e) = none) :
    WellFormed
      { s with
        shelf := s.shelf.push CacheKey.direct s.keyOf e
        totalIndices := s.totalIndices + (s.heap e).indices.length } := by
  have total := formed.total
  refine ⟨formed.places.push free, ?_⟩
  change s.totalIndices + (s.heap e).indices.length = (lengths s.heap (e :: s.shelf.lru) : Int)
  unfold lengths at total ⊢
  rw [List.map_cons, List.sum_cons]
  omega

theorem WellFormed.putEntryLocked (e : Ref) :
    (s.putEntryLocked e).WellFormed ∧
      (s.putEntryLocked e).WithinLimits s.maxEntries s.maxIndices := by
  unfold Searches.putEntryLocked
  cases found : s.shelf.entries.lookup (s.keyOf e) with
  | none => exact (formed.push found).evict (List.cons_ne_nil _ _)
  | some old =>
      have same := formed.places.keyed _ old found
      have held : old ∈ s.shelf.lru := (formed.places.listed old).mpr (same ▸ found)
      have free : (s.removeEntryLocked old).shelf.entries.lookup (s.keyOf e) = none := by
        change (s.shelf.entries.erase (s.keyOf old)).lookup (s.keyOf e) = none
        rw [same, AList.lookup_erase]
      exact ((formed.remove held).push free).evict (List.cons_ne_nil _ _)

theorem WellFormed.alloc {e : Ref}
    (new : e ∉ s.shelf.lru) (entry : CacheEntry) : (s.alloc e entry).WellFormed := by
  have same : ∀ other ∈ s.shelf.lru, s.heap other = (s.alloc e entry).heap other := by
    intro other member
    have differ : other ≠ e := fun equal => new (equal ▸ member)
    exact (Function.update_of_ne differ entry s.heap).symm
  refine ⟨formed.places.congr fun other member => congrArg CacheEntry.key (same other member), ?_⟩
  exact formed.total.trans (congrArg Int.ofNat (lengths_congr same))

theorem WellFormed.change {e : Ref}
    (held : e ∈ s.shelf.lru) {entry : CacheEntry} {total : Int} (key : s.keyOf e = entry.key)
    (sum : total - entry.indices.length = s.totalIndices - (s.heap e).indices.length) :
    WellFormed { s.alloc e entry with totalIndices := total } := by
  have here : (s.alloc e entry).heap e = entry := Function.update_self _ _ _
  have others : ∀ other ∈ s.shelf.lru, other ≠ e →
      s.heap other = (s.alloc e entry).heap other := by
    intro other _ differ
    exact (Function.update_of_ne differ entry s.heap).symm
  constructor
  · refine formed.places.congr fun other member => ?_
    by_cases same : other = e
    · rw [same, key]
      exact congrArg CacheEntry.key here.symm
    · exact congrArg CacheEntry.key (others other member same)
  · have before := lengths_erase s.heap held
    have after := lengths_erase (s.alloc e entry).heap held
    have kept : lengths s.heap (s.shelf.lru.erase e) =
        lengths (s.alloc e entry).heap (s.shelf.lru.erase e) :=
      lengths_congr fun other member =>
        others other (List.mem_of_mem_erase member) (formed.places.once.mem_erase_iff.mp member).1
    have was := formed.total
    rw [← kept, here] at after
    change total = (lengths (s.alloc e entry).heap s.shelf.lru : Int)
    omega

end

theorem sortSearchFrom_le (test : Nat → Bool) (fuel low high bound : Nat) (left : low ≤ bound)
    (right : high ≤ bound) : sortSearchFrom test fuel low high ≤ bound := by
  induction fuel generalizing low high with
  | zero => exact left
  | succ fuel ih =>
      rw [sortSearchFrom]
      dsimp only
      split_ifs
      · exact ih _ _ left (by omega)
      · exact ih _ _ (by omega) right
      · exact left

theorem hintEntry_shelf (recno score : Int32) (s : Searches) (e : Ref) :
    (s.hintEntry recno score e).shelf = s.shelf := by
  unfold hintEntry
  dsimp only
  split_ifs <;> rfl

theorem WellFormed.hintEntry {s : Searches} (formed : s.WellFormed) {e : Ref}
    (held : e ∈ s.shelf.lru) (recno score : Int32) : (s.hintEntry recno score e).WellFormed := by
  have parts := lengths_erase s.heap held
  have total := formed.total
  have place : sortSearch (s.heap e).indices.length
      (fun i => recno ≤ (s.heap e).indices.getD i 0) ≤ (s.heap e).indices.length :=
    sortSearchFrom_le _ _ _ _ _ (Nat.zero_le _) (Nat.le_refl _)
  unfold Searches.hintEntry
  dsimp only
  generalize sortSearch (s.heap e).indices.length
    (fun i => recno ≤ (s.heap e).indices.getD i 0) = idx at place ⊢
  split_ifs with _ _ gone absent new
  · exact formed
  · exact formed
  · have present : (s.heap e).indices[idx]? = some recno := by
      rw [Bool.and_eq_true, decide_eq_true_eq] at gone
      exact gone.2
    have inside := (List.getElem?_eq_some_iff.mp present).1
    exact absurd absent (by omega)
  · have present : (s.heap e).indices[idx]? = some recno := by
      rw [Bool.and_eq_true, decide_eq_true_eq] at gone
      exact gone.2
    have inside := (List.getElem?_eq_some_iff.mp present).1
    refine formed.change held ?_ ?_
    · rfl
    dsimp only
    rw [List.length_append, List.length_take, List.length_drop]
    omega
  · refine formed.change held ?_ ?_
    · rfl
    dsimp only
    rw [List.length_append, List.length_take, List.length_cons, List.length_drop]
    omega
  · exact formed

theorem WellFormed.hintEntries {s : Searches} (formed : s.WellFormed) {refs : List Ref}
    (held : ∀ e ∈ refs, e ∈ s.shelf.lru) (recno score : Int32) :
    (refs.foldl (Searches.hintEntry recno score) s).WellFormed := by
  induction refs generalizing s with
  | nil => exact formed
  | cons e rest ih =>
      refine ih (formed.hintEntry (held e List.mem_cons_self) recno score) fun other member => ?_
      rw [hintEntry_shelf]
      exact held other (List.mem_cons_of_mem e member)

theorem WellFormed.removeAll {s : Searches} (formed : s.WellFormed) {refs : List Ref}
    (apart : refs.Nodup) (held : ∀ e ∈ refs, e ∈ s.shelf.lru) :
    (refs.foldl Searches.removeEntryLocked s).WellFormed := by
  induction refs generalizing s with
  | nil => exact formed
  | cons e rest ih =>
      have absent := (List.nodup_cons.mp apart).1
      refine ih (formed.remove (held e List.mem_cons_self)) (List.nodup_cons.mp apart).2
        fun other member => ?_
      refine formed.places.once.mem_erase_iff.mpr ⟨?_, held other (List.mem_cons_of_mem e member)⟩
      exact fun same => absent (same ▸ member)

end Searches

/-! ### AIDs -/

namespace Answers

def Listed (s : Answers) (e : Ref) (rk : BoardRecKey) : Prop :=
  e ∈ s.shelf.lru ∧ 0 < (s.heap e).foundIdx ∧ (s.heap e).recKey = rk

/-- The answers lie in all their places, those with a record under it as well. -/
structure WellFormed (s : Answers) : Prop where
  places : s.shelf.Sound AIDCacheKey.direct s.keyOf
  records : TagLists.Sound s.byRec s.Listed

def WithinLimits (maxAIDEntries : Int) (s : Answers) : Prop :=
  s.shelf.entries.size ≤ maxAIDEntries ∨ s.shelf.lru.length = 1

section

variable {s : Answers} (formed : s.WellFormed)

include formed

theorem WellFormed.remove {e : Ref}
    (held : e ∈ s.shelf.lru) : (s.removeAIDEntryLocked e).WellFormed := by
  refine ⟨formed.places.remove held, ?_⟩
  have listed : ∀ other rk, (s.removeAIDEntryLocked e).Listed other rk ↔
      other ≠ e ∧ s.Listed other rk := by
    intro other rk
    change other ∈ s.shelf.lru.erase e ∧ _ ↔ _
    rw [formed.places.once.mem_erase_iff, and_assoc]
    rfl
  change TagLists.Sound (if 0 < (s.heap e).foundIdx then
    TagLists.drop s.byRec (s.heap e).recKey e else s.byRec) _
  split
  · rename_i found
    refine (formed.records.drop ⟨held, found, rfl⟩).congr fun other rk => ?_
    rw [listed]
    constructor
    · rintro ⟨here, apart⟩
      exact ⟨fun same => apart ⟨same, by rw [← here.2.2, same]⟩, here⟩
    · exact fun both => ⟨both.2, fun same => both.1 same.1⟩
  · rename_i missing
    refine formed.records.congr fun other rk => ?_
    rw [listed]
    refine (and_iff_right_of_imp fun here => ?_).symm
    rintro rfl
    exact missing here.2.1

theorem WellFormed.evict (some : s.shelf.lru ≠ []) :
    s.evict.WellFormed ∧ s.evict.WithinLimits s.maxAIDEntries := by
  induction s using Answers.evict.induct with
  | case1 s exceeding nothing =>
      exact absurd (List.getLast?_eq_none_iff.mp nothing) some
  | case2 s exceeding victim back ih =>
      have held := List.mem_of_getLast? back
      have rest : (s.shelf.lru.erase victim) ≠ [] := by
        apply List.ne_nil_of_length_pos
        rw [List.length_erase_of_mem held]
        omega
      have removed := formed.remove held
      rw [Answers.evict, if_pos exceeding]
      split
      · rename_i nothing
        rw [back] at nothing
        cases nothing
      · rename_i other found
        obtain rfl := Option.some.inj (back.symm.trans found)
        exact ih ⟨removed.places, removed.records⟩ rest
  | case3 s fits =>
      rw [Answers.evict, if_neg fits]
      refine ⟨formed, ?_⟩
      have positive := List.length_pos_iff.mpr some
      unfold WithinLimits
      omega

theorem WellFormed.push {e : Ref}
    (free : s.shelf.entries.lookup (s.keyOf e) = none) :
    WellFormed
      { s with
        shelf := s.shelf.push AIDCacheKey.direct s.keyOf e
        byRec :=
          if 0 < (s.heap e).foundIdx then TagLists.add s.byRec (s.heap e).recKey e
          else s.byRec } := by
  have absent : e ∉ s.shelf.lru := by
    intro member
    rw [(formed.places.listed e).mp member] at free
    cases free
  refine ⟨formed.places.push free, ?_⟩
  have listed : ∀ other rk, (other ∈ e :: s.shelf.lru ∧ 0 < (s.heap other).foundIdx ∧
      (s.heap other).recKey = rk) ↔
      s.Listed other rk ∨ other = e ∧ 0 < (s.heap e).foundIdx ∧ rk = (s.heap e).recKey := by
    intro other rk
    rw [List.mem_cons]
    constructor
    · rintro ⟨rfl | member, found, same⟩
      · exact .inr ⟨rfl, found, same.symm⟩
      · exact .inl ⟨member, found, same⟩
    · rintro (⟨member, found, same⟩ | ⟨rfl, found, same⟩)
      · exact ⟨.inr member, found, same⟩
      · exact ⟨.inl rfl, found, same.symm⟩
  split
  · rename_i found
    refine (formed.records.add fun here => absent here.1).congr fun other rk => ?_
    refine Iff.trans ?_ (listed other rk).symm
    rw [and_iff_right found]
  · rename_i missing
    refine formed.records.congr fun other rk => ?_
    refine Iff.trans ?_ (listed other rk).symm
    exact (or_iff_left fun here => missing here.2.1).symm

theorem WellFormed.putAIDEntryLocked (e : Ref) :
    (s.putAIDEntryLocked e).WellFormed ∧
      (s.putAIDEntryLocked e).WithinLimits s.maxAIDEntries := by
  unfold Answers.putAIDEntryLocked
  cases found : s.shelf.entries.lookup (s.keyOf e) with
  | none => exact (formed.push found).evict (List.cons_ne_nil _ _)
  | some old =>
      have same := formed.places.keyed _ old found
      have held : old ∈ s.shelf.lru := (formed.places.listed old).mpr (same ▸ found)
      have free : (s.removeAIDEntryLocked old).shelf.entries.lookup (s.keyOf e) = none := by
        change (s.shelf.entries.erase (s.keyOf old)).lookup (s.keyOf e) = none
        rw [same, AList.lookup_erase]
      exact ((formed.remove held).push free).evict (List.cons_ne_nil _ _)

theorem WellFormed.alloc {e : Ref} {entry : AIDCacheEntry}
    (same : e ∈ s.shelf.lru →
      s.keyOf e = entry.key ∧ (s.heap e).foundIdx = entry.foundIdx) :
    (s.alloc e entry).WellFormed := by
  have kept : ∀ other ∈ s.shelf.lru, s.keyOf other = (s.alloc e entry).keyOf other ∧
      (s.heap other).foundIdx = ((s.alloc e entry).heap other).foundIdx := by
    intro other member
    change (s.heap other).key = (Function.update s.heap e entry other).key ∧
      (s.heap other).foundIdx = (Function.update s.heap e entry other).foundIdx
    by_cases here : other = e
    · subst here
      rw [Function.update_self]
      exact same member
    · rw [Function.update_of_ne here]
      exact ⟨rfl, rfl⟩
  refine ⟨formed.places.congr fun other member => (kept other member).1,
    formed.records.congr fun other rk => and_congr_right fun member => ?_⟩
  obtain ⟨key, found⟩ := kept other member
  have recKey : (s.heap other).recKey = ((s.alloc e entry).heap other).recKey := by
    unfold AIDCacheEntry.recKey
    rw [found, show (s.heap other).key = _ from key]
    rfl
  rw [found, recKey]

theorem WellFormed.hintScore (direct : Bytes)
    (recno score : Int32) : (s.hintScore direct recno score).WellFormed := by
  unfold Answers.hintScore
  generalize TagLists.under s.byRec _ = refs
  induction refs generalizing s with
  | nil => exact formed
  | cons e rest ih => exact ih (formed.alloc fun _ => ⟨rfl, rfl⟩)

theorem WellFormed.removeAll {refs : List Ref}
    (apart : refs.Nodup) (held : ∀ e ∈ refs, e ∈ s.shelf.lru) :
    (refs.foldl Answers.removeAIDEntryLocked s).WellFormed := by
  induction refs generalizing s with
  | nil => exact formed
  | cons e rest ih =>
      have absent := (List.nodup_cons.mp apart).1
      refine ih (formed.remove (held e List.mem_cons_self)) (List.nodup_cons.mp apart).2
        fun other member => ?_
      refine formed.places.once.mem_erase_iff.mpr ⟨?_, held other (List.mem_cons_of_mem e member)⟩
      exact fun same => absent (same ▸ member)

end

end Answers

/-! ### Both caches -/

section Victims

variable {Key : Type} [DecidableEq Key] {shelf : Shelf Key Bytes Ref} {direct : Key → Bytes}
  {key : Ref → Key}

theorem flatMap_groupRefs_nodup (sound : shelf.Sound direct key) {dirs : List Bytes}
    (apart : dirs.Nodup) {part : Bytes → List Ref}
    (within : ∀ dir, (part dir).Sublist (shelf.groupRefs dir)) : (dirs.flatMap part).Nodup := by
  have member : ∀ dir e, e ∈ part dir → direct (key e) = dir := fun dir e here =>
    (sound.mem_groupRefs.mp ((within dir).subset here)).2
  refine List.nodup_flatMap.mpr
    ⟨fun dir _ => (sound.groupRefs_nodup dir).sublist (within dir), ?_⟩
  refine apart.imp fun {left right} differ => ?_
  intro e first second
  exact differ ((member left e first).symm.trans (member right e second))

theorem victims_held (sound : shelf.Sound direct key) (directOf : Ref → Bytes)
    (bidOf : Ref → Int32) (boards : List (Bytes × Int32)) (resolvedDirect : Bytes) (bid : Int32) :
    (victims shelf directOf bidOf boards resolvedDirect bid).Nodup ∧
      ∀ e ∈ victims shelf directOf bidOf boards resolvedDirect bid, e ∈ shelf.lru := by
  have targets : (targetDirects boards resolvedDirect bid).Nodup := List.nodup_dedup _
  have inTargets := flatMap_groupRefs_nodup sound targets fun _ => List.Sublist.refl _
  have heldTargets : ∀ e ∈ (targetDirects boards resolvedDirect bid).flatMap shelf.groupRefs,
      e ∈ shelf.lru ∧ direct (key e) ∈ targetDirects boards resolvedDirect bid := by
    intro e member
    obtain ⟨dir, target, here⟩ := List.mem_flatMap.mp member
    obtain ⟨held, same⟩ := sound.mem_groupRefs.mp here
    exact ⟨held, same ▸ target⟩
  unfold victims
  split_ifs with both directory
  · exact ⟨inTargets, fun e member => (heldTargets e member).1⟩
  · have heldOthers : ∀ e ∈ (shelf.byGroup.keys.filter fun dir =>
        dir ∉ targetDirects boards resolvedDirect bid).flatMap
          fun dir => (shelf.groupRefs dir).filter fun e => bidOf e = bid,
        e ∈ shelf.lru ∧ direct (key e) ∉ targetDirects boards resolvedDirect bid := by
      intro e member
      obtain ⟨dir, other, here⟩ := List.mem_flatMap.mp member
      obtain ⟨held, same⟩ := sound.mem_groupRefs.mp (List.mem_of_mem_filter here)
      have outside := of_decide_eq_true (List.mem_filter.mp other).2
      exact ⟨held, same ▸ outside⟩
    refine ⟨List.Nodup.append inTargets ?_ fun e first second => ?_, fun e member => ?_⟩
    · have dirs : (shelf.byGroup.keys.filter fun dir =>
          dir ∉ targetDirects boards resolvedDirect bid).Nodup :=
        shelf.byGroup.keys_nodup.filter _
      exact flatMap_groupRefs_nodup sound dirs fun _ => List.filter_sublist
    · exact (heldOthers e second).2 (heldTargets e first).2
    · rcases List.mem_append.mp member with first | second
      · exact (heldTargets e first).1
      · exact (heldOthers e second).1
  · refine ⟨sound.values_nodup.filter _, fun e member => ?_⟩
    exact sound.mem_values.mp (List.mem_of_mem_filter member)

end Victims

structure Service.WellFormed (s : Service) : Prop where
  searches : s.searches.WellFormed
  answers : s.answers.WellFormed

theorem Service.WellFormed.invalidateInternal {s s' : Service} (formed : s.WellFormed)
    {boards : List (Bytes × Int32)} {resolvedDirect : Bytes} {bid : Int32}
    (flushed : InvalidateInternal boards resolvedDirect bid s s') : s'.WellFormed := by
  obtain ⟨order, aidOrder, same, aidSame, rfl⟩ := flushed
  obtain ⟨apart, held⟩ := victims_held formed.searches.places _ _ boards resolvedDirect bid
  obtain ⟨aidApart, aidHeld⟩ := victims_held formed.answers.places _ _ boards resolvedDirect bid
  constructor
  · exact formed.searches.removeAll (same.nodup_iff.mpr apart)
      fun e member => held e (same.mem_iff.mp member)
  · exact formed.answers.removeAll (aidSame.nodup_iff.mpr aidApart)
      fun e member => aidHeld e (aidSame.mem_iff.mp member)

theorem Service.WellFormed.forgetDeleted {s : Service} (formed : s.WellFormed) (direct : Bytes)
    (aidu : UInt64) : (forgetDeleted direct aidu s).WellFormed := by
  unfold Caches.forgetDeleted
  split
  · split
    · exact formed
    · rename_i e found
      have same := formed.answers.places.keyed _ e found
      refine ⟨formed.searches, formed.answers.remove ?_⟩
      exact (formed.answers.places.listed e).mpr (same ▸ found)
  · exact formed

theorem Service.WellFormed.step {s s' : Service} (formed : s.WellFormed) (call : Step s s') :
    s'.WellFormed := by
  cases call with
  | putEntry e entry new =>
      exact ⟨((formed.searches.alloc new entry).putEntryLocked e).1, formed.answers⟩
  | removeEntry e held => exact ⟨formed.searches.remove held, formed.answers⟩
  | putAIDEntry e entry new =>
      have written : (s.answers.alloc e entry).WellFormed :=
        formed.answers.alloc fun held => absurd held new
      exact ⟨formed.searches, (written.putAIDEntryLocked e).1⟩
  | removeAIDEntry e held => exact ⟨formed.searches, formed.answers.remove held⟩
  | hintComment direct recno score hint =>
      unfold HandleHintComment at hint
      split at hint
      · exact hint ▸ formed
      · obtain ⟨order, same, rfl⟩ := hint
        refine ⟨formed.searches.hintEntries (fun e member => ?_) recno score,
          formed.answers.hintScore direct recno score⟩
        exact (formed.searches.places.mem_groupRefs.mp (same.mem_iff.mp member)).1
  | hintPost direct resolvedBid recno aidu fhBytes e new =>
      unfold handleHintPost
      dsimp only
      split_ifs
      all_goals first
        | exact formed
        | exact ⟨formed.searches,
            ((formed.answers.alloc fun held => absurd held new).putAIDEntryLocked e).1⟩
  | hintDelete boards direct bid aidu hint =>
      exact (formed.forgetDeleted direct aidu).invalidateInternal hint
  | invalidate boards resolvedDirect bid flushed => exact formed.invalidateInternal flushed
  | searchHit e held =>
      have same : (e :: s.searches.shelf.lru.erase e).Perm s.searches.shelf.lru :=
        (List.perm_cons_erase held).symm
      refine ⟨⟨formed.searches.places.touch held, ?_⟩, formed.answers⟩
      have total := formed.searches.total
      change s.searches.totalIndices =
        (Searches.lengths s.searches.heap (e :: s.searches.shelf.lru.erase e) : Int)
      rw [total]
      exact congrArg Int.ofNat (same.map _).sum_eq.symm
  | aidHit e held =>
      have same : (e :: s.answers.shelf.lru.erase e).Perm s.answers.shelf.lru :=
        (List.perm_cons_erase held).symm
      refine ⟨formed.searches, ⟨formed.answers.places.touch held, ?_⟩⟩
      exact formed.answers.records.congr fun other rk => and_congr_left' same.mem_iff.symm
  | setCacheLimits maxEntries maxIndices maxAIDEntries =>
      exact ⟨⟨formed.searches.places, formed.searches.total⟩,
        ⟨formed.answers.places, formed.answers.records⟩⟩

theorem Reachable.wellFormed {s : Service} (reached : Reachable s) : s.WellFormed := by
  induction reached with
  | start heap aidHeap maxEntries maxIndices maxAIDEntries =>
      refine ⟨⟨.of_empty, rfl⟩, ⟨.of_empty, .of_empty fun e rk listed => ?_⟩⟩
      exact List.not_mem_nil listed.1
  | step before call ih => exact ih.step call

/-- After any calls the caches are well formed, and every put ends within the limits or with a
single entry. -/
theorem caches_wellFormed {s : Service} (reached : Reachable s) :
    s.WellFormed ∧
    (∀ e entry, e ∉ s.searches.shelf.lru →
      ((s.searches.alloc e entry).putEntryLocked e).WithinLimits s.searches.maxEntries
        s.searches.maxIndices) ∧
    ∀ e entry, e ∉ s.answers.shelf.lru →
      ((s.answers.alloc e entry).putAIDEntryLocked e).WithinLimits s.answers.maxAIDEntries := by
  have formed := reached.wellFormed
  refine ⟨formed, fun e entry new => ?_, fun e entry new => ?_⟩
  · exact ((formed.searches.alloc new entry).putEntryLocked e).2
  · have written : (s.answers.alloc e entry).WellFormed :=
      formed.answers.alloc fun held => absurd held new
    exact (written.putAIDEntryLocked e).2

def oneSearch : Service :=
  let entry : CacheEntry := ⟨⟨utf8 "boards/T/Test/.DIR", 1, []⟩, [7], 9⟩
  let searches : Searches := { heap := fun _ => entry, maxEntries := 0, maxIndices := 0 }
  let answer : AIDCacheEntry := ⟨⟨[], 0, 0⟩, 0, 0, [], 0⟩
  { searches := (searches.alloc 0 entry).putEntryLocked 0
    answers := { heap := fun _ => answer, maxAIDEntries := 0 } }

theorem caches_wellFormed_one : oneSearch.WellFormed :=
  (caches_wellFormed (.step (.start _ _ 0 0 0) (.putEntry _ 0 _ List.not_mem_nil))).1

end Pttbbs.SearchSvc.Caches
