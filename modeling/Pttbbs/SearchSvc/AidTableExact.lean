/-
When the table of AIDs is exact.

What the table finds is always there.  What is there is found when it stands near the end of
the table, or when no record that can mislead the binary search is farther from it than the
window reaches: one with the same stamp, or one on the wrong side, with the records without
an AID next to it.
-/

import Pttbbs.SearchSvc.AidTable
import Pttbbs.SearchSvc.BacktrackBound

namespace Pttbbs.SearchSvc.BoardAIDTable

open Pttbbs.Lib

/-! ### The records the search looks at -/

section Probe

variable {table : BoardAIDTable} {low stop mid fuel delta : Nat}

theorem nearestFrom_some {place : Nat} (inside : low ≤ mid ∧ mid < stop)
    (found : table.nearestFrom low stop mid fuel delta = some place) :
    low ≤ place ∧ place < stop ∧ table.rawAt place ≠ 0 := by
  induction fuel generalizing delta with
  | zero => cases found
  | succ fuel ih =>
      rw [nearestFrom] at found
      split at found
      · split at found
        · rename_i after
          cases found
          exact ⟨by omega, after.1, after.2⟩
        · split at found
          · rename_i before
            cases found
            exact ⟨by omega, by omega, before.2⟩
          · exact ih found
      · cases found

theorem nearestFrom_none (enough : stop - low < fuel + delta) (inside : low ≤ mid ∧ mid < stop)
    (seen : ∀ place, low ≤ place → place < stop → place < mid + delta → mid < place + delta →
      table.rawAt place = 0)
    (none : table.nearestFrom low stop mid fuel delta = none) :
    ∀ place, low ≤ place → place < stop → table.rawAt place = 0 := by
  induction fuel generalizing delta with
  | zero =>
      intro place above below
      exact seen place above below (by omega) (by omega)
  | succ fuel ih =>
      rw [nearestFrom] at none
      split at none
      · split at none
        · cases none
        · rename_i notAfter
          split at none
          · cases none
          · rename_i notBefore
            refine ih (by omega) ?_ none
            intro place above below near near'
            by_cases after : place = mid + delta
            · by_contra present
              exact notAfter ⟨by omega, after ▸ present⟩
            · by_cases before : place + delta = mid
              · by_contra present
                have same : mid - delta = place := by omega
                exact notBefore ⟨by omega, same.symm ▸ present⟩
              · exact seen place above below (by omega) (by omega)
      · intro place above below
        exact seen place above below (by omega) (by omega)

theorem middle_inside (more : low < stop) : low ≤ middle low stop ∧ middle low stop < stop := by
  unfold middle
  omega

end Probe

section Exact

variable {table : BoardAIDTable}

theorem probe_some {low stop place : Nat} (more : low < stop)
    (found : table.probe low stop = some place) :
    low ≤ place ∧ place < stop ∧ table.rawAt place ≠ 0 := by
  have inside := middle_inside more
  unfold probe at found
  split at found
  · rename_i present
    cases found
    exact ⟨inside.1, inside.2, present⟩
  · exact nearestFrom_some inside found

theorem probe_none {low stop : Nat} (more : low < stop) (none : table.probe low stop = none) :
    ∀ place, low ≤ place → place < stop → table.rawAt place = 0 := by
  unfold probe at none
  split at none
  · cases none
  · rename_i absent
    refine nearestFrom_none (by omega) (middle_inside more) ?_ none
    intro place above below near near'
    have same : place = middle low stop := by omega
    rw [same]
    exact not_not.mp absent

/-- No record that can mislead a search for the one at this place is too far from it. -/
structure InReach (table : BoardAIDTable) (place : Nat) : Prop where
  same : ∀ other, table.rawAt other ≠ 0 →
    stampOf (table.rawAt other) = stampOf (table.rawAt place) →
    place < other + table.halfWindow ∧ other ≤ place + table.halfWindow
  late : ∀ other stop, place < other → table.rawAt other ≠ 0 →
    stampOf (table.rawAt other) < stampOf (table.rawAt place) →
    (∀ between, other < between → between < stop → table.rawAt between = 0) →
    middle (other + 1) stop ≤ place + table.halfWindow
  early : ∀ low other, other < place → table.rawAt other ≠ 0 →
    stampOf (table.rawAt place) < stampOf (table.rawAt other) →
    (∀ between, low < between → between < other → table.rawAt between = 0) →
    place < middle low other + table.halfWindow

/-- A raw AID that is in the table is there near the end, or in reach of a search. -/
def Findable (table : BoardAIDTable) (raw : Nat) : Prop :=
  raw ∈ table.aids → ∃ place, place < table.aids.length ∧ table.rawAt place = raw ∧
    (table.aids.length ≤ place + 64 ∨ table.InReach place)

theorem middle_self (place : Nat) : middle place place = place := by
  unfold middle
  omega

theorem middle_pred (place : Nat) : middle place (place + 1) = place := by
  unfold middle
  omega

theorem turn_cases {raw place : Nat} :
    (table.turn raw place = .halt → stampOf (table.rawAt place) = stampOf raw) ∧
    (table.turn raw place = .later → stampOf (table.rawAt place) < stampOf raw) ∧
    (table.turn raw place = .earlier → stampOf raw < stampOf (table.rawAt place)) := by
  unfold turn
  split
  · exact ⟨nofun, nofun, nofun⟩
  · split
    · rename_i same
      exact ⟨fun _ => same, nofun, nofun⟩
    · split
      · rename_i less
        exact ⟨nofun, fun _ => less, nofun⟩
      · exact ⟨nofun, nofun, fun _ => by omega⟩

theorem InReach.window {place mid : Nat} (reach : table.InReach place)
    (ends : DeadEnd (fun other => table.rawAt other ≠ 0) table.probe
      (table.turn (table.rawAt place)) place mid) :
    place < mid + table.halfWindow ∧ mid ≤ place + table.halfWindow := by
  cases ends with
  | halt present halted => exact reach.same mid present (turn_cases.1 halted)
  | @late other mid wrong present misled next =>
      have less := turn_cases.2.1 misled
      have bound := fun stop => reach.late other stop wrong present less
      have alone := bound (other + 1) (fun between above below => absurd below (by omega))
      rw [middle_self] at alone
      rcases next with rfl | rfl | ⟨stop, more, none, rfl⟩
      · omega
      · omega
      · have silent := bound stop fun between above below =>
          probe_none more none between above below
        have inside := middle_inside more
        exact ⟨by omega, silent⟩
  | @early other mid wrong present misled next =>
      have greater := turn_cases.2.2 misled
      have bound := fun low => reach.early low other wrong present greater
      have alone := bound other (fun between above below => absurd below (by omega))
      rw [middle_self] at alone
      rcases next with rfl | rfl | ⟨low, more, none, rfl⟩
      · omega
      · have before := bound mid (fun between above below => absurd below (by omega))
        rw [middle_pred] at before
        omega
      · have silent := bound low fun between above below =>
          probe_none more none between (by omega) below
        have inside := middle_inside more
        exact ⟨silent, by omega⟩

theorem rawAt_mem {place : Nat} (present : table.rawAt place ≠ 0) :
    place < table.aids.length ∧ table.rawAt place ∈ table.aids := by
  unfold rawAt at present ⊢
  by_cases inside : place < table.aids.length
  · rw [List.getD_eq_getElem _ _ inside]
    exact ⟨inside, List.getElem_mem inside⟩
  · exact absurd (List.getD_eq_default _ _ (by omega)) present

theorem placeOf_some {raw place : Nat} (found : table.placeOf raw = some place) :
    place < table.aids.length ∧ table.rawAt place = raw := by
  unfold placeOf at found
  dsimp only at found
  split at found
  · cases found
  · rename_i searched
    have positive : raw ≠ 0 := fun zero => searched (Or.inl zero)
    have sound : table.rawAt place = raw := by
      split at found
      · cases found
      · split at found
        · rename_i tail
          cases found
          exact of_decide_eq_true (scanDown_some tail).1
        · split at found
          · rename_i met
            cases found
            have turned := approach_found met
            unfold turn at turned
            split at turned
            · rename_i same
              exact same
            · split at turned
              · cases turned
              · split at turned
                · cases turned
                · cases turned
          · exact of_decide_eq_true (scanDown_some found).1
    exact ⟨(rawAt_mem (sound ▸ positive)).1, sound⟩

/-! ### The range of the stamps -/

def Ranged (table : BoardAIDTable) : Prop :=
  ∀ raw ∈ table.aids, 0 < stampOf raw →
    0 < table.minTS ∧ table.minTS ≤ stampOf raw ∧ stampOf raw ≤ table.maxTS

theorem Ranged.notOut {raw : Nat} (ranged : table.Ranged) (member : raw ∈ table.aids) :
    table.outOfRange (stampOf raw) = false := by
  unfold outOfRange
  rw [decide_eq_false_iff_not]
  rintro ⟨positive, out⟩
  obtain ⟨_, least, largest⟩ := ranged raw member positive
  omega

theorem placeOf_isSome {raw : Nat} (ranged : table.Ranged) (positive : raw ≠ 0)
    (findable : table.Findable raw) (member : raw ∈ table.aids) :
    ∃ place, table.placeOf raw = some place := by
  obtain ⟨place, inside, same, near⟩ := findable member
  unfold placeOf
  dsimp only
  rw [if_neg (by omega), if_neg (by rw [ranged.notOut member]; exact Bool.false_ne_true)]
  split
  · exact ⟨_, rfl⟩
  · rename_i notTail
    split
    · exact ⟨_, rfl⟩
    · rename_i mid ended
      rcases near with tail | reach
      · obtain ⟨other, found⟩ := @scanDown_isSome (fun place => table.rawAt place = raw)
          (table.aids.length - 64) table.aids.length place (decide_eq_true same) (by omega) inside
        rw [found] at notTail
        cases notTail
      · have self : table.turn raw place = .found := by
          unfold turn
          rw [if_pos same]
        have ends : DeadEnd (fun other => table.rawAt other ≠ 0) table.probe (table.turn raw)
            place mid := by
          refine approach_near (fun low stop mid more _ probed => probe_some more probed) ?_ ?_
            (Nat.le_refl _) ?_ (Nat.sub_le _ 0) (Or.inl (Nat.zero_lt_of_lt inside)) ended
          · rintro low stop more none ⟨above, below⟩
            have zero := probe_none more none place above below
            omega
          · rw [self]
            exact ⟨by simp, by simp⟩
          · exact ⟨Nat.zero_le _, Or.inl (Nat.zero_le _), Or.inl inside⟩
        rw [← same] at ends
        obtain ⟨below, above⟩ := reach.window ends
        exact scanDown_isSome (decide_eq_true same) (by omega) (by omega)

theorem Ranged.noteStamp {raw : Nat} (ranged : table.Ranged) (list : List Nat)
    (members : ∀ other ∈ list, other ∈ table.aids ∨ other = raw ∨ other = 0) :
    Ranged { table.noteStamp raw with aids := list } := by
  intro other member positive
  change 0 < (table.noteStamp raw).minTS ∧ (table.noteStamp raw).minTS ≤ stampOf other ∧
    stampOf other ≤ (table.noteStamp raw).maxTS
  have old := fun inside => ranged other inside positive
  have from' : other ∈ table.aids ∨ other = raw := by
    rcases members other member with inside | same | rfl
    · exact Or.inl inside
    · exact Or.inr same
    · rw [stampOf_zero] at positive
      exact absurd positive (Nat.lt_irrefl 0)
  unfold BoardAIDTable.noteStamp
  dsimp only
  split
  · dsimp only
    rcases from' with inside | rfl
    · obtain ⟨some, least, largest⟩ := old inside
      split <;> split <;> omega
    · split <;> split <;> omega
  · rcases from' with inside | rfl
    · exact old inside
    · contradiction

theorem Ranged.keep (ranged : table.Ranged) (list : List Nat)
    (members : ∀ other ∈ list, other ∈ table.aids ∨ other = 0) :
    Ranged { table with aids := list } := by
  intro other member positive
  rcases members other member with inside | rfl
  · exact ranged other inside positive
  · rw [stampOf_zero] at positive
    exact absurd positive (Nat.lt_irrefl 0)

theorem noteStamp_aids (raw : Nat) : (table.noteStamp raw).aids = table.aids := by
  unfold noteStamp
  dsimp only
  split <;> rfl

theorem Ranged.appendPost (ranged : table.Ranged) (recno : Int32) (aidu : Nat) :
    (table.appendPost recno aidu).Ranged := by
  unfold BoardAIDTable.appendPost
  dsimp only
  split
  · exact ranged
  · refine ranged.noteStamp _ ?_
    rw [noteStamp_aids]
    have padded : ∀ other ∈ table.aids ++
        List.replicate ((recno - 1).toInt.toNat - table.aids.length) 0,
        other ∈ table.aids ∨ other = 0 := by
      intro other member
      rcases List.mem_append.mp member with inside | zero
      · exact Or.inl inside
      · exact Or.inr (List.eq_of_mem_replicate zero)
    intro other member
    split at member
    · rcases List.mem_append.mp member with before | last
      · exact (padded other before).imp_right Or.inr
      · exact Or.inr (Or.inl (List.mem_singleton.mp last))
    · rcases List.mem_or_eq_of_mem_set member with before | same
      · exact (padded other before).imp_right Or.inr
      · exact Or.inr (Or.inl same)

theorem Ranged.deletePostChecked (ranged : table.Ranged) (recno : Int32) (aidu : Nat) :
    (table.deletePostChecked recno aidu).2.Ranged := by
  unfold BoardAIDTable.deletePostChecked
  dsimp only
  split
  · exact ranged
  · split
    · split
      · exact ranged
      · exact ranged.keep _ fun other member => Or.inl (List.mem_of_mem_eraseIdx member)
    · exact ranged

theorem Ranged.syncRecord (ranged : table.Ranged) (name : Option Bytes) :
    (table.syncRecord name).Ranged := by
  have blank : Ranged { table with aids := table.aids ++ [0] } :=
    ranged.keep _ fun other member =>
      (List.mem_append.mp member).imp_right List.mem_singleton.mp
  unfold BoardAIDTable.syncRecord
  cases name with
  | none => exact blank
  | some fn =>
      dsimp only
      split
      · exact blank
      · refine ranged.noteStamp _ fun other member => ?_
        rcases List.mem_append.mp member with before | last
        · exact Or.inl before
        · exact Or.inr (Or.inl (List.mem_singleton.mp last))

theorem Ranged.syncTail (ranged : table.Ranged) (readFilenameAt : Int → Option Bytes)
    (curTotal : Int32) : (table.syncTail readFilenameAt curTotal).Ranged := by
  unfold BoardAIDTable.syncTail
  dsimp only
  generalize (Int32.ofNat table.aids.length).toInt = curLen
  generalize List.range (curTotal.toInt - curLen).toNat = steps
  induction steps generalizing table with
  | nil => exact ranged
  | cons step steps ih => exact ih (ranged.syncRecord _)

theorem Ranged.run (ranged : table.Ranged) (calls : List Call) : (table.run calls).Ranged := by
  unfold BoardAIDTable.run
  induction calls generalizing table with
  | nil => exact ranged
  | cons call calls ih =>
      refine ih ?_
      cases call with
      | appendPost recno aidu => exact ranged.appendPost recno aidu
      | deletePostChecked recno aidu => exact ranged.deletePostChecked recno aidu
      | syncTail readFilenameAt curTotal => exact ranged.syncTail readFilenameAt curTotal

def Contains (stats : AidStats) (stamp : Nat) : Prop :=
  0 < stats.minTS ∧ stats.minTS ≤ stamp ∧ stamp ≤ stats.maxTS

theorem contains_visit {aids : List Nat} {record : Nat} {stats : AidStats} {stamp : Nat}
    (positive : 0 < stamp)
    (known : Contains stats stamp ∨ stampOf (aids.getD record 0) = stamp) :
    Contains (stats.visit aids record) stamp := by
  unfold AidStats.visit
  dsimp only
  split
  · rename_i ignored
    rcases known with inside | rfl
    · exact inside
    · rcases ignored with none | zero
      · rw [none, stampOf_zero] at positive
        exact absurd positive (Nat.lt_irrefl 0)
      · omega
  · rename_i counted
    have ranged : ∀ stats' : AidStats,
        stats'.minTS = (if stats.minTS = 0 ∨ stampOf (aids.getD record 0) < stats.minTS then
          stampOf (aids.getD record 0) else stats.minTS) →
        stats'.maxTS = (if stats.maxTS < stampOf (aids.getD record 0) then
          stampOf (aids.getD record 0) else stats.maxTS) → Contains stats' stamp := by
      intro stats' least largest
      unfold Contains at known ⊢
      rw [least, largest]
      rcases known with inside | rfl
      · split <;> split <;> omega
      · split <;> split <;> omega
    split
    · exact ranged _ rfl rfl
    · exact ranged _ rfl rfl

theorem ranged_load (aids : List Nat) : (load aids).Ranged := by
  have visited : ∀ count place, place < count → 0 < stampOf (aids.getD place 0) →
      Contains ((List.range count).foldl (fun stats record => stats.visit aids record) {})
        (stampOf (aids.getD place 0)) := by
    intro count
    induction count with
    | zero => exact fun _ bound => absurd bound (Nat.not_lt_zero _)
    | succ count ih =>
        intro place bound positive
        rw [List.range_succ, List.foldl_append, List.foldl_cons, List.foldl_nil]
        refine contains_visit positive ?_
        rcases Nat.lt_succ_iff_lt_or_eq.mp bound with before | rfl
        · exact Or.inl (ih place before positive)
        · exact Or.inr rfl
  intro raw member positive
  obtain ⟨place, inside, rfl⟩ := List.getElem_of_mem member
  rw [← List.getD_eq_getElem _ 0 inside] at positive ⊢
  exact visited aids.length place inside positive

theorem ascending_of_chain {aids : List Nat}
    (chain : ((aids.filter (· ≠ 0)).map stampOf).IsChain (· < ·)) :
    aids.Pairwise fun earlier later =>
      earlier ≠ 0 → later ≠ 0 → stampOf earlier < stampOf later := by
  have sorted := List.isChain_iff_pairwise.mp chain
  rw [List.pairwise_map, List.pairwise_filter] at sorted
  refine sorted.imp ?_
  intro earlier later less first second
  exact less (decide_eq_true first) (decide_eq_true second)

/-- Where the stamps ascend, with any records without an AID between them, nothing misleads
a search. -/
theorem findable_of_ascending {raw : Nat} (some : raw ≠ 0)
    (ascending : table.aids.Pairwise fun earlier later =>
      earlier ≠ 0 → later ≠ 0 → stampOf earlier < stampOf later) : table.Findable raw := by
  have order : ∀ earlier later, earlier < later → table.rawAt earlier ≠ 0 →
      table.rawAt later ≠ 0 → stampOf (table.rawAt earlier) < stampOf (table.rawAt later) := by
    intro earlier later before first second
    have inside := (rawAt_mem second).1
    have outer := Nat.lt_trans before inside
    unfold rawAt at first second ⊢
    rw [List.getD_eq_getElem _ _ outer] at first ⊢
    rw [List.getD_eq_getElem _ _ inside] at second ⊢
    exact List.pairwise_iff_getElem.mp ascending earlier later outer inside before first second
  intro member
  obtain ⟨place, inside, same⟩ := List.getElem_of_mem member
  have here : table.rawAt place = raw := by
    rw [rawAt, List.getD_eq_getElem _ _ inside, same]
  have present : table.rawAt place ≠ 0 := here.symm ▸ some
  have reach : 128 ≤ table.halfWindow := by
    unfold halfWindow
    omega
  refine ⟨place, inside, here, Or.inr ⟨?_, ?_, ?_⟩⟩
  · intro other there equal
    rcases Nat.lt_trichotomy other place with before | rfl | after
    · have less := order other place before there present
      omega
    · omega
    · have less := order place other after present there
      omega
  · intro other stop after there wrong
    have less := order place other after present there
    omega
  · intro low other before there wrong
    have less := order other place before there present
    omega

end Exact

/-! ### The table -/

theorem toInt_recno {place total : Nat} (inside : place < total) (short : total < 2 ^ 31) :
    (Int32.ofNat (place + 1)).toInt = place + 1 := by
  rw [Int32.toInt_ofNat_of_lt (by omega)]
  rfl

/-- In every table that any calls lead to, what is found is there; and what is there is found,
as long as it can be. -/
theorem searchAID_exact (aids : List Nat) (calls : List Call) (targetAIDU : Nat)
    (some : aiduRaw targetAIDU ≠ 0)
    (short : ((load aids).run calls).aids.length < 2 ^ 31)
    (findable : ((load aids).run calls).Findable (aiduRaw targetAIDU)) :
    (0 < ((load aids).run calls).searchAID targetAIDU ↔
      aiduRaw targetAIDU ∈ ((load aids).run calls).aids) ∧
    (0 < ((load aids).run calls).searchAID targetAIDU →
      ((load aids).run calls).aids[
        (((load aids).run calls).searchAID targetAIDU - 1).toNat]? =
          Option.some (aiduRaw targetAIDU)) := by
  have ranged := (ranged_load aids).run calls
  generalize (load aids).run calls = table at *
  unfold searchAID
  cases found : table.placeOf (aiduRaw targetAIDU) with
  | none =>
      refine ⟨⟨fun positive => absurd positive (Int.lt_irrefl 0), fun member => ?_⟩,
        fun positive => absurd positive (Int.lt_irrefl 0)⟩
      obtain ⟨place, other⟩ := placeOf_isSome ranged some findable member
      rw [found] at other
      cases other
  | some place =>
      obtain ⟨inside, same⟩ := placeOf_some found
      dsimp only
      rw [toInt_recno inside short]
      have member := (rawAt_mem (same.symm ▸ some)).2
      rw [same] at member
      refine ⟨⟨fun _ => member, fun _ => by omega⟩, fun _ => ?_⟩
      have index : ((place : Int) + 1 - 1).toNat = place := by omega
      rw [index, ← same, rawAt, List.getD_eq_getElem _ _ inside]
      exact List.getElem?_eq_getElem inside

/-- A board of a hundred articles, one post behind a gap and one deletion: the first article
is out of the tail and is found. -/
theorem searchAID_first :
    let calls := [Call.appendPost 103 (200 * 2 ^ 12), Call.deletePostChecked 5 0]
    let table := (load ((List.range 100).map fun place => (place + 1) * 2 ^ 12)).run calls
    (0 < table.searchAID (1 * 2 ^ 12) ↔ aiduRaw (1 * 2 ^ 12) ∈ table.aids) ∧
      (0 < table.searchAID (1 * 2 ^ 12) →
        table.aids[(table.searchAID (1 * 2 ^ 12) - 1).toNat]? = some (aiduRaw (1 * 2 ^ 12))) :=
  searchAID_exact _ _ _ (by decide +kernel) (by decide +kernel)
    (findable_of_ascending (by decide +kernel) (ascending_of_chain (by decide +kernel)))

/-! ### A search by places -/

section Places

variable {table : BoardAIDTable}

/-- `nearestFrom` for what the places of a table hold. -/
def nearestBy (rawAt : Nat → Nat) (low stop mid : Nat) : Nat → Nat → Option Nat
  | 0, _ => none
  | fuel + 1, delta =>
      if mid + delta < stop ∨ low + delta ≤ mid then
        if mid + delta < stop ∧ rawAt (mid + delta) ≠ 0 then some (mid + delta)
        else if low + delta ≤ mid ∧ rawAt (mid - delta) ≠ 0 then some (mid - delta)
        else nearestBy rawAt low stop mid fuel (delta + 1)
      else none

theorem nearestFrom_eq (low stop mid fuel delta : Nat) :
    table.nearestFrom low stop mid fuel delta = nearestBy table.rawAt low stop mid fuel delta := by
  induction fuel generalizing delta with
  | zero => rfl
  | succ fuel ih => rw [nearestFrom, nearestBy, ih]

def approachBy (rawAt : Nat → Nat) (total targetRaw : Nat) : Ending :=
  approach
    (fun low stop =>
      if rawAt (middle low stop) ≠ 0 then some (middle low stop)
      else nearestBy rawAt low stop (middle low stop) (stop - low) 1)
    (fun place =>
      if rawAt place = targetRaw then .found
      else if stampOf (rawAt place) = stampOf targetRaw then .halt
      else if stampOf (rawAt place) < stampOf targetRaw then .later
      else .earlier) total 0 total 0

theorem approach_eq (targetRaw : Nat) :
    approach table.probe (table.turn targetRaw) table.aids.length 0 table.aids.length 0 =
      approachBy table.rawAt table.aids.length targetRaw := by
  have probe : table.probe = fun low stop =>
      if table.rawAt (middle low stop) ≠ 0 then some (middle low stop)
      else nearestBy table.rawAt low stop (middle low stop) (stop - low) 1 := by
    funext low stop
    rw [BoardAIDTable.probe, nearestFrom_eq]
  rw [probe]
  rfl

theorem searchAID_eq_zero {targetAIDU mid : Nat}
    (near : approachBy table.rawAt table.aids.length (aiduRaw targetAIDU) = .near mid)
    (tail : ∀ place, table.aids.length - 64 ≤ place → place < table.aids.length →
      table.rawAt place ≠ aiduRaw targetAIDU)
    (window : ∀ place, mid - table.halfWindow ≤ place → place < mid + table.halfWindow →
      table.rawAt place ≠ aiduRaw targetAIDU) : table.searchAID targetAIDU = 0 := by
  have missed : table.placeOf (aiduRaw targetAIDU) = none := by
    cases found : table.placeOf (aiduRaw targetAIDU) with
    | none => rfl
    | some place =>
        rw [placeOf] at found
        dsimp only at found
        rw [approach_eq, near] at found
        split at found
        · cases found
        · split at found
          · cases found
          · split at found
            · rename_i other here
              obtain ⟨hit, low, high⟩ := scanDown_some here
              exact absurd (of_decide_eq_true hit) (tail other low high)
            · obtain ⟨hit, low, high⟩ := scanDown_some found
              exact absurd (of_decide_eq_true hit)
                (window place low (Nat.lt_of_lt_of_le high (Nat.min_le_left _ _)))
  rw [searchAID, missed]

end Places

def misledAt (place : Nat) : Nat :=
  if place = 0 then 10 * 2 ^ 12 else if place = 250 then 20 * 2 ^ 12
  else if place = 399 then 15 * 2 ^ 12 else if place = 599 then 30 * 2 ^ 12 else 0

/-- A post with an older stamp, which comes after the table was loaded: the search ends at
record 126, and the window has 128 records on each side. -/
theorem searchAID_misled :
    let table := (load [10 * 2 ^ 12]).run [.appendPost 251 (20 * 2 ^ 12),
      .appendPost 400 (15 * 2 ^ 12), .appendPost 600 (30 * 2 ^ 12)]
    15 * 2 ^ 12 ∈ table.aids ∧ table.searchAID (15 * 2 ^ 12) = 0 := by
  intro table
  have aids : table.aids = [10 * 2 ^ 12] ++ List.replicate 249 0 ++ [20 * 2 ^ 12] ++
      List.replicate 148 0 ++ [15 * 2 ^ 12] ++ List.replicate 199 0 ++ [30 * 2 ^ 12] := by
    decide +kernel
  have half : table.halfWindow = 128 := by decide +kernel
  have total : table.aids.length = 600 := by
    rw [aids]
    simp only [List.length_append, List.length_replicate, List.length_singleton]
  have rawAt : table.rawAt = misledAt := by
    funext place
    rw [BoardAIDTable.rawAt, aids, misledAt]
    simp only [List.getD_eq_getElem?_getD, List.getElem?_append, List.length_append,
      List.length_replicate, List.length_singleton, List.getElem?_replicate,
      List.getElem?_singleton, Nat.reduceAdd]
    split_ifs <;> first | rfl | omega
  have other : ∀ place, place ≠ 399 → misledAt place ≠ aiduRaw (15 * 2 ^ 12) := by
    intro place away
    have raw : aiduRaw (15 * 2 ^ 12) = 61440 := by decide
    rw [misledAt, raw, if_neg away]
    split_ifs <;> decide
  have member : 15 * 2 ^ 12 ∈ table.aids := by
    rw [aids]
    exact List.mem_append_left _ (List.mem_append_left _
      (List.mem_append_right _ List.mem_cons_self))
  refine ⟨member, @searchAID_eq_zero table _ 125 ?_ ?_ ?_⟩
  · rw [rawAt, total]
    decide +kernel
  · intro place low high
    rw [total] at low high
    rw [rawAt]
    exact other place (by omega)
  · intro place low high
    rw [half] at low high
    rw [rawAt]
    exact other place (by omega)

end Pttbbs.SearchSvc.BoardAIDTable
