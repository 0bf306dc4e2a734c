/-
The list of banned addresses.

Ranges are added with the place where the message that follows them will lie.  The ranges are then
sorted, neighbours with one message are merged, and an address is looked up by a binary search that
goes back from the last range that starts at or before it.
-/

import Pttbbs.Common.BanTokens
import Pttbbs.Lib.Comparison

namespace Pttbbs.Common.BanIp

open Pttbbs.Lib Pttbbs.Lib.Comparison

structure BanRecord where
  startIp : UInt32
  endIp : UInt32
  msgOffset : UInt32
deriving DecidableEq

/-- An `IPv4List`; `sz` and `szmsg` are the lengths of its arrays. -/
structure IPv4List where
  ar : List BanRecord := []
  msg : Bytes := []
deriving DecidableEq

/-! ### Adding -/

def compareBanrecord (a b : BanRecord) : Int :=
  if a.startIp < b.startIp then -1
  else if b.startIp < a.startIp then 1
  else if a.endIp < b.endIp then -1
  else if b.endIp < a.endIp then 1
  else 0

def addBanipListRange (list : IPv4List) (startIp endIp : UInt32) : IPv4List :=
  { list with
    ar := list.ar ++
      [{ startIp := startIp, endIp := endIp, msgOffset := UInt32.ofNat list.msg.length }] }

def keptText (msg : Bytes) : Bytes := msg.rdropWhile isSpace

/-- `add_banip_list_message`; nothing where the length is no `int` or the assertion fails. -/
def addBanipListMessage (list : IPv4List) (msg : Bytes) : Option IPv4List :=
  if 2 ^ 31 ≤ msg.length ∨ keptText msg = [] then none
  else some { list with msg := list.msg ++ (keptText msg ++ [10, 13, 0]) }

/-! ### Sorting -/

/-- The loop that merges; `prev` is the record written last. -/
def mergeFrom (prev : BanRecord) : List BanRecord → List BanRecord
  | [] => [prev]
  | curr :: rest =>
      if (curr.startIp ≤ prev.endIp + 1 ∧ prev.startIp ≤ curr.startIp) ∧
          curr.msgOffset = prev.msgOffset then
        mergeFrom { prev with endIp := if prev.endIp < curr.endIp then curr.endIp else prev.endIp }
          rest
      else prev :: mergeFrom curr rest

def mergeSorted : List BanRecord → List BanRecord
  | [] => []
  | first :: rest => mergeFrom first rest

def SortBanipList (list result : IPv4List) : Prop :=
  ∃ sorted, QsortLeaves compareBanrecord list.ar sorted ∧
    result = { list with ar := mergeSorted sorted }

/-! ### Looking up -/

/-- How the binary search ends; `outside` is a read behind the array. -/
inductive Probe where
  | found (record : BanRecord)
  | best (candidate : Option Nat)
  | outside

def searchLoop (ar : List BanRecord) (ip : UInt32) (low high : Nat) (best : Option Nat) : Probe :=
  if low ≤ high then
    let mid := low + (high - low) / 2
    match ar[mid]? with
    | none => .outside
    | some record =>
        if record.startIp ≤ ip then
          if ip ≤ record.endIp then .found record
          else searchLoop ar ip (mid + 1) high (some mid)
        else if mid = 0 then .best best
        else searchLoop ar ip low (mid - 1) best
  else .best best
termination_by high + 1 - low

/-- The loop down from a place; nothing where it reads behind the array. -/
def scanBack (ar : List BanRecord) (ip : UInt32) : Nat → Option (Option BanRecord)
  | 0 => some none
  | place + 1 =>
      match ar[place]? with
      | none => none
      | some record =>
          if record.startIp ≤ ip ∧ ip ≤ record.endIp then some (some record)
          else scanBack ar ip place

/-- `search_banrecord`; nothing where it reads behind the array. -/
def searchBanrecord (ar : List BanRecord) (ip : UInt32) : Option (Option BanRecord) :=
  if ar.length = 0 then some none
  else
    match searchLoop ar ip 0 (ar.length - 1) none with
    | .outside => none
    | .found record => some (some record)
    | .best none => some none
    | .best (some place) => scanBack ar ip (place + 1)

def strBanned : Bytes := utf8 "YOUR ARE USING A BANNED IP.\n\r"

def inBanipListAddr (list : IPv4List) (ip : UInt32) : Option (Option Bytes) :=
  if list.ar.length = 0 then some none
  else
    (searchBanrecord list.ar ip).map fun found =>
      found.map fun p =>
        if p.msgOffset.toNat < list.msg.length then
          (list.msg.drop p.msgOffset.toNat).takeWhile (· ≠ 0)
        else strBanned

/-! ### Records and addresses -/

def BanRecord.Holds (record : BanRecord) (ip : UInt32) : Prop :=
  record.startIp ≤ ip ∧ ip ≤ record.endIp

def Ascends (ar : List BanRecord) : Prop :=
  ar.Pairwise fun left right => left.startIp ≤ right.startIp

def Answers (ar : List BanRecord) (ip : UInt32) (found : Option BanRecord) : Prop :=
  (∀ record ∈ found, record ∈ ar ∧ record.Holds ip) ∧
    (found = none → ∀ record ∈ ar, ¬ record.Holds ip)

section Search

variable {ar : List BanRecord} {ip : UInt32}

theorem Ascends.le (ascends : Ascends ar) {i j : Nat} {left right : BanRecord} (order : i ≤ j)
    (first : ar[i]? = some left) (second : ar[j]? = some right) :
    left.startIp ≤ right.startIp := by
  obtain ⟨inside, here⟩ := List.getElem?_eq_some_iff.mp first
  obtain ⟨within, there⟩ := List.getElem?_eq_some_iff.mp second
  rcases Nat.lt_or_eq_of_le order with less | rfl
  · rw [← here, ← there]
    exact List.pairwise_iff_getElem.mp ascends i j inside within less
  · rw [first] at second
    rw [Option.some.inj second]

def Behind (ar : List BanRecord) (ip : UInt32) (place : Nat) : Prop :=
  ∀ i record, place ≤ i → ar[i]? = some record → ip < record.startIp

inductive ProbeSound (ar : List BanRecord) (ip : UInt32) : Probe → Prop where
  | found {record : BanRecord} (member : record ∈ ar) (holds : record.Holds ip) :
      ProbeSound ar ip (.found record)
  | nothing (behind : Behind ar ip 0) : ProbeSound ar ip (.best none)
  | best {place : Nat} (inside : place < ar.length) (behind : Behind ar ip (place + 1)) :
      ProbeSound ar ip (.best (some place))

theorem searchLoop_sound (ascends : Ascends ar) {low high : Nat} {best : Option Nat}
    (inside : high < ar.length) (behind : Behind ar ip (high + 1))
    (candidate : best = none ∧ low = 0 ∨ ∃ place, best = some place ∧ place + 1 = low ∧
      low ≤ high + 1) :
    ProbeSound ar ip (searchLoop ar ip low high best) := by
  induction low, high, best using searchLoop.induct ar ip with
  | case1 low high best order mid missing =>
      have within : mid < ar.length := by omega
      rw [List.getElem?_eq_getElem within] at missing
      cases missing
  | case2 low high best order mid record read below above =>
      rw [searchLoop, if_pos order]
      dsimp only
      rw [read]
      dsimp only
      rw [if_pos below, if_pos above]
      exact .found (List.mem_of_getElem? read) ⟨below, above⟩
  | case3 low high best order mid record read below above ih =>
      rw [searchLoop, if_pos order]
      dsimp only
      rw [read]
      dsimp only
      rw [if_pos below, if_neg above]
      exact ih inside behind (.inr ⟨mid, rfl, rfl, by omega⟩)
  | case4 low high best order mid record read below first =>
      rw [searchLoop, if_pos order]
      dsimp only
      rw [read]
      dsimp only
      rw [if_neg below, if_pos first]
      rcases candidate with ⟨rfl, _⟩ | ⟨place, _, next, _⟩
      · refine .nothing fun i other _ here => ?_
        have start := ascends.le (show mid ≤ i by omega) read here
        exact lt_of_lt_of_le (UInt32.not_le.mp below) start
      · omega
  | case5 low high best order mid record read below first ih =>
      rw [searchLoop, if_pos order]
      dsimp only
      rw [read]
      dsimp only
      rw [if_neg below, if_neg first]
      refine ih (by omega) (fun i other place here => ?_) ?_
      · have start := ascends.le (show mid ≤ i by omega) read here
        exact lt_of_lt_of_le (UInt32.not_le.mp below) start
      · rcases candidate with nothing | ⟨place, same, next, _⟩
        · exact .inl nothing
        · exact .inr ⟨place, same, next, by omega⟩
  | case6 low high best order =>
      rw [searchLoop, if_neg order]
      rcases candidate with ⟨_, zero⟩ | ⟨place, rfl, next, bound⟩
      · omega
      · exact .best (by omega) (by rw [show place + 1 = high + 1 by omega]; exact behind)

theorem scanBack_sound {count : Nat} (inside : count ≤ ar.length)
    (clear : ∀ i record, count ≤ i → ar[i]? = some record → ¬ record.Holds ip) :
    ∃ found, scanBack ar ip count = some found ∧ Answers ar ip found := by
  induction count with
  | zero =>
      refine ⟨none, rfl, fun _ none => (Option.not_mem_none _ none).elim, fun _ record member => ?_⟩
      obtain ⟨i, here⟩ := List.mem_iff_getElem?.mp member
      exact clear i record (Nat.zero_le i) here
  | succ place ih =>
      have read := List.getElem?_eq_getElem (l := ar) inside
      rw [scanBack, read]
      dsimp only
      by_cases holds : ar[place].startIp ≤ ip ∧ ip ≤ ar[place].endIp
      · rw [if_pos holds]
        refine ⟨_, rfl, fun record same => ?_, fun impossible => ?_⟩
        · rw [← Option.some.inj same]
          exact ⟨List.getElem_mem inside, holds⟩
        · cases impossible
      · rw [if_neg holds]
        refine ih (by omega) fun i record from_place here => ?_
        rcases Nat.eq_or_lt_of_le from_place with rfl | later
        · rw [read] at here
          rw [← Option.some.inj here]
          exact holds
        · exact clear i record later here

theorem searchBanrecord_answers (ascends : Ascends ar) (ip : UInt32) :
    ∃ found, searchBanrecord ar ip = some found ∧ Answers ar ip found := by
  by_cases empty : ar.length = 0
  · rw [searchBanrecord, if_pos empty, List.eq_nil_of_length_eq_zero empty]
    refine ⟨none, rfl, fun _ none => (Option.not_mem_none _ none).elim, fun _ record member => ?_⟩
    cases member
  · have behind : Behind ar ip (ar.length - 1 + 1) := by
      intro i record past here
      have within := (List.getElem?_eq_some_iff.mp here).1
      omega
    have sound := searchLoop_sound ascends (by omega) behind (.inl ⟨rfl, rfl⟩)
    rw [searchBanrecord, if_neg empty]
    generalize searchLoop ar ip 0 (ar.length - 1) none = probe at sound
    cases sound with
    | found member holds =>
        refine ⟨_, rfl, fun record same => ?_, fun impossible => ?_⟩
        · rw [← Option.some.inj same]
          exact ⟨member, holds⟩
        · cases impossible
    | nothing behind =>
        refine ⟨none, rfl, fun _ none => (Option.not_mem_none _ none).elim,
          fun _ record member holds => ?_⟩
        obtain ⟨i, here⟩ := List.mem_iff_getElem?.mp member
        exact absurd holds.1 (UInt32.not_le.mpr (behind i record (Nat.zero_le i) here))
    | best inside behind =>
        exact scanBack_sound inside fun i record past here holds =>
          absurd holds.1 (UInt32.not_le.mpr (behind i record past here))

end Search

/-! ### Merging -/

def Covers (ar : List BanRecord) (ip offset : UInt32) : Prop :=
  ∃ record ∈ ar, record.Holds ip ∧ record.msgOffset = offset

theorem covers_cons {record : BanRecord} {ar : List BanRecord} {ip offset : UInt32} :
    Covers (record :: ar) ip offset ↔
      (record.Holds ip ∧ record.msgOffset = offset) ∨ Covers ar ip offset := by
  unfold Covers
  rw [List.exists_mem_cons_iff]

theorem holds_merged {prev curr : BanRecord} (ip : UInt32)
    (joins : curr.startIp ≤ prev.endIp + 1 ∧ prev.startIp ≤ curr.startIp) :
    BanRecord.Holds
        { prev with endIp := if prev.endIp < curr.endIp then curr.endIp else prev.endIp } ip ↔
      prev.Holds ip ∨ curr.Holds ip := by
  obtain ⟨near, order⟩ := joins
  unfold BanRecord.Holds
  simp only [UInt32.le_iff_toNat_le, UInt32.lt_iff_toNat_lt, UInt32.toNat_add] at near order ⊢
  have one : (1 : UInt32).toNat = 1 := rfl
  have bound := curr.endIp.toNat_lt
  rw [one] at near
  split <;> omega

theorem mergeFrom_starts (prev : BanRecord) (rest : List BanRecord) :
    ((mergeFrom prev rest).map BanRecord.startIp).Sublist
      ((prev :: rest).map BanRecord.startIp) := by
  induction rest generalizing prev with
  | nil => exact List.Sublist.refl _
  | cons curr rest ih =>
      rw [mergeFrom]
      split
      · refine (ih _).trans ?_
        exact (List.sublist_cons_self _ _).cons_cons _
      · exact (ih curr).cons_cons _

theorem mergeFrom_covers {prev : BanRecord} {rest : List BanRecord} (ip offset : UInt32) :
    Covers (mergeFrom prev rest) ip offset ↔ Covers (prev :: rest) ip offset := by
  induction rest generalizing prev with
  | nil => exact Iff.rfl
  | cons curr rest ih =>
      rw [mergeFrom]
      split
      · rename_i joins
        rw [ih, covers_cons, covers_cons, covers_cons, holds_merged ip joins.1, joins.2]
        tauto
      · rw [covers_cons, ih, ← covers_cons]

theorem Ascends.mergeSorted {ar : List BanRecord} (ascends : Ascends ar) :
    Ascends (mergeSorted ar) := by
  cases ar with
  | nil => exact ascends
  | cons first rest =>
      have starts := List.pairwise_map.mpr ascends
      exact List.pairwise_map.mp (starts.sublist (mergeFrom_starts first rest))

theorem mergeSorted_covers (ar : List BanRecord) (ip offset : UInt32) :
    Covers (mergeSorted ar) ip offset ↔ Covers ar ip offset := by
  cases ar with
  | nil => exact Iff.rfl
  | cons first rest => exact mergeFrom_covers ip offset

theorem compareBanrecord_sign (a b : BanRecord) :
    SignOf (fun record => toLex (record.startIp.toNat, record.endIp.toNat)) a b
      (compareBanrecord a b) := by
  have starts := UInt32.toNat_inj (a := a.startIp) (b := b.startIp)
  have ends := UInt32.toNat_inj (a := a.endIp) (b := b.endIp)
  constructor
  · rw [Prod.Lex.toLex_lt_toLex]
    unfold compareBanrecord
    simp only [UInt32.lt_iff_toNat_lt]
    split_ifs <;> omega
  · rw [toLex_inj, Prod.mk.injEq]
    unfold compareBanrecord
    simp only [UInt32.lt_iff_toNat_lt]
    constructor
    · intro zero
      split_ifs at zero <;> omega
    · intro both
      rw [if_neg (by omega), if_neg (by omega), if_neg (by omega), if_neg (by omega)]

theorem SortBanipList.keeps {list result : IPv4List} (sorted : SortBanipList list result) :
    result.msg = list.msg ∧ Ascends result.ar ∧
      ∀ ip offset, Covers result.ar ip offset ↔ Covers list.ar ip offset := by
  obtain ⟨ar, leaves, rfl⟩ := sorted
  obtain ⟨same, order⟩ := leaves (consistentOn_of_sign fun _ _ _ => compareBanrecord_sign _ _)
  refine ⟨rfl, Ascends.mergeSorted ?_, fun ip offset => ?_⟩
  · refine order.imp fun {left right} less => ?_
    have keys := (compareBanrecord_sign left right).le_zero.mp less
    rw [Prod.Lex.toLex_le_toLex] at keys
    rw [UInt32.le_iff_toNat_le]
    rcases keys with below | ⟨equal, _⟩
    · exact below.le
    · exact equal.le
  · rw [mergeSorted_covers]
    unfold Covers
    exact exists_congr fun record => and_congr_left' same.mem_iff

/-! ### Ranges and messages -/

inductive Entry where
  | range (startIp endIp : UInt32)
  | message (msg : CStr)

def addEntries (list : IPv4List) : List Entry → Option IPv4List
  | [] => some list
  | .range startIp endIp :: rest => addEntries (addBanipListRange list startIp endIp) rest
  | .message msg :: rest =>
      (addBanipListMessage list msg.bytes).bind fun next => addEntries next rest

def Entry.stored : Entry → Bytes
  | .range _ _ => []
  | .message msg => keptText msg.bytes ++ [10, 13, 0]

def storedText (entries : List Entry) : Bytes := entries.flatMap Entry.stored

def nextMessage : List Entry → Option CStr
  | [] => none
  | .range _ _ :: rest => nextMessage rest
  | .message msg :: _ => some msg

def toldOf : Option CStr → Bytes
  | none => strBanned
  | some msg => keptText msg.bytes ++ [10, 13]

def Given (entries : List Entry) (startIp endIp : UInt32) (text : Bytes) : Prop :=
  ∃ before after, entries = before ++ .range startIp endIp :: after ∧
    toldOf (nextMessage after) = text

/-- The messages are not blank, their lengths are `int`s, and their places 32 bits. -/
structure Storable (entries : List Entry) : Prop where
  each : ∀ msg, .message msg ∈ entries → msg.bytes.length < 2 ^ 31 ∧ keptText msg.bytes ≠ []
  together : (storedText entries).length < 2 ^ 32

/-- The look-up finds a record exactly for the addresses of the given ranges, without a read
outside, and tells what is given with a range that holds the address. -/
structure BansExactly (list : IPv4List) (given : UInt32 → UInt32 → Bytes → Prop) : Prop where
  search : ∀ ip, ∃ found, searchBanrecord list.ar ip = some found ∧
    (found.isSome ↔ ∃ startIp endIp text, given startIp endIp text ∧ startIp ≤ ip ∧ ip ≤ endIp)
  answer : ∀ ip, ∃ answer, inBanipListAddr list ip = some answer ∧
    (answer.isSome ↔
      ∃ startIp endIp text, given startIp endIp text ∧ startIp ≤ ip ∧ ip ≤ endIp) ∧
    ∀ text ∈ answer, ∃ startIp endIp, given startIp endIp text ∧ startIp ≤ ip ∧ ip ≤ endIp

def textAt (msg : Bytes) (offset : UInt32) : Bytes :=
  if offset.toNat < msg.length then (msg.drop offset.toNat).takeWhile (· ≠ 0) else strBanned

theorem inBanipListAddr_eq (list : IPv4List) (ip : UInt32) :
    inBanipListAddr list ip =
      (searchBanrecord list.ar ip).map fun found =>
        found.map fun p => textAt list.msg p.msgOffset := by
  unfold inBanipListAddr
  split
  · rename_i empty
    rw [searchBanrecord, if_pos empty]
    rfl
  · rfl

theorem storedText_cons (entry : Entry) (entries : List Entry) :
    storedText (entry :: entries) = entry.stored ++ storedText entries :=
  List.flatMap_cons

/-- The entries that can be stored leave their texts one behind another, and each range the place
where the text behind it starts. -/
theorem addEntries_spec {entries : List Entry}
    (each : ∀ msg, .message msg ∈ entries → msg.bytes.length < 2 ^ 31 ∧ keptText msg.bytes ≠ [])
    (list : IPv4List) :
    ∃ result, addEntries list entries = some result ∧
      result.msg = list.msg ++ storedText entries ∧
      ∀ record, record ∈ result.ar ↔ record ∈ list.ar ∨ ∃ before after,
        entries = before ++ .range record.startIp record.endIp :: after ∧
          record.msgOffset = UInt32.ofNat (list.msg ++ storedText before).length := by
  induction entries generalizing list with
  | nil =>
      refine ⟨list, rfl, (List.append_nil _).symm, fun record => (or_iff_left ?_).symm⟩
      rintro ⟨before, after, empty, _⟩
      cases before <;> cases empty
  | cons entry rest ih =>
      have others := fun msg member => each msg (List.mem_cons_of_mem entry member)
      cases entry with
      | range startIp endIp =>
          obtain ⟨result, added, text, records⟩ := ih others (addBanipListRange list startIp endIp)
          refine ⟨result, added, text, fun record => ?_⟩
          rw [records, addBanipListRange]
          dsimp only
          rw [List.mem_append, List.mem_singleton]
          constructor
          · rintro ((old | rfl) | ⟨before, after, split, place⟩)
            · exact .inl old
            · exact .inr ⟨[], rest, rfl, by rw [storedText, List.flatMap_nil, List.append_nil]⟩
            · refine .inr ⟨.range startIp endIp :: before, after, ?_, ?_⟩
              · rw [split, List.cons_append]
              · rw [place, storedText_cons]
                rfl
          · rintro (old | ⟨before, after, split, place⟩)
            · exact .inl (.inl old)
            · cases before with
              | nil =>
                  injection split with first _
                  injection first with starts ends
                  rw [storedText, List.flatMap_nil, List.append_nil] at place
                  exact .inl (.inr (by rw [starts, ends, ← place]))
              | cons entry before =>
                  injection split with first split
                  refine .inr ⟨before, after, split, ?_⟩
                  rw [place, storedText_cons, ← first]
                  rfl
      | message msg =>
          obtain ⟨short, nonblank⟩ := each msg List.mem_cons_self
          have step : addBanipListMessage list msg.bytes =
              some { list with msg := list.msg ++ (Entry.message msg).stored } := by
            rw [addBanipListMessage, if_neg (not_or.mpr ⟨Nat.not_le.mpr short, nonblank⟩)]
            rfl
          obtain ⟨result, added, text, records⟩ :=
            ih others { list with msg := list.msg ++ (Entry.message msg).stored }
          refine ⟨result, ?_, ?_, fun record => ?_⟩
          · rw [addEntries, step]
            exact added
          · rw [text, storedText_cons, List.append_assoc]
          · rw [records]
            refine or_congr_right ?_
            constructor
            · rintro ⟨before, after, split, place⟩
              refine ⟨.message msg :: before, after, ?_, ?_⟩
              · rw [split, List.cons_append]
              · rw [place, storedText_cons, List.append_assoc]
            · rintro ⟨before, after, split, place⟩
              cases before with
              | nil =>
                  injection split with impossible _
                  cases impossible
              | cons entry before =>
                  injection split with first split
                  refine ⟨before, after, split, ?_⟩
                  rw [place, storedText_cons, ← first, List.append_assoc]

theorem storedText_next (entries : List Entry) :
    match nextMessage entries with
    | none => storedText entries = []
    | some msg => ∃ rest, storedText entries = keptText msg.bytes ++ 10 :: 13 :: 0 :: rest := by
  induction entries with
  | nil => rfl
  | cons entry rest ih =>
      rw [storedText_cons]
      cases entry with
      | range startIp endIp => exact ih
      | message msg => exact ⟨storedText rest, List.append_assoc _ _ _⟩

theorem textAt_stored {before after : List Entry} {startIp endIp : UInt32}
    (together : (storedText (before ++ .range startIp endIp :: after)).length < 2 ^ 32) :
    textAt (storedText (before ++ .range startIp endIp :: after))
      (UInt32.ofNat (storedText before).length) = toldOf (nextMessage after) := by
  have joined : storedText (before ++ .range startIp endIp :: after) =
      storedText before ++ storedText after := by
    rw [storedText, List.flatMap_append]
    rfl
  rw [joined] at together ⊢
  generalize storedText before = front at together ⊢
  have place : (UInt32.ofNat front.length).toNat = front.length := by
    rw [List.length_append] at together
    exact Nat.mod_eq_of_lt (by omega)
  have next := storedText_next after
  rw [textAt, place, List.drop_left]
  cases message : nextMessage after with
  | none =>
      rw [message] at next
      rw [next, List.append_nil, if_neg (Nat.lt_irrefl _)]
      rfl
  | some msg =>
      rw [message] at next
      obtain ⟨rest, next⟩ := next
      have kept : ∀ byte ∈ keptText msg.bytes ++ [10, 13], decide (byte ≠ 0) = true := by
        intro byte member
        rw [List.mem_append] at member
        refine decide_eq_true ?_
        rintro rfl
        rcases member with inside | impossible
        · exact msg.plain ((List.rdropWhile_prefix isSpace msg.bytes).subset inside)
        · simp at impossible
      have split : keptText msg.bytes ++ 10 :: 13 :: 0 :: rest =
          (keptText msg.bytes ++ [10, 13]) ++ 0 :: rest := by
        rw [List.append_assoc]
        rfl
      rw [next, split, if_pos (by rw [List.length_append, List.length_append]; simp),
        List.takeWhile_append_of_pos kept, List.takeWhile_cons_of_neg (by simp), List.append_nil]
      rfl

theorem bansExactly_of_covers {entries : List Entry} {list result : IPv4List}
    (storable : Storable entries) (added : addEntries {} entries = some list)
    (sorted : SortBanipList list result) : BansExactly result (Given entries) := by
  obtain ⟨same, ascends, covers⟩ := sorted.keeps
  obtain ⟨whole, added', text, records⟩ := addEntries_spec storable.each {}
  obtain rfl := Option.some.inj (added.symm.trans added')
  rw [List.nil_append] at text
  -- A record of the result that holds an address is told what a given range is told.
  have given_of_covers : ∀ ip offset, Covers result.ar ip offset →
      ∃ startIp endIp, Given entries startIp endIp (textAt result.msg offset) ∧
        startIp ≤ ip ∧ ip ≤ endIp := by
    intro ip offset covered
    obtain ⟨record, member, holds, rfl⟩ := (covers ip offset).mp covered
    rcases (records record).mp member with impossible | ⟨before, after, split, place⟩
    · cases impossible
    · refine ⟨record.startIp, record.endIp, ⟨before, after, split, ?_⟩, holds⟩
      have together := storable.together
      rw [split] at together
      rw [same, text, split, place]
      exact (textAt_stored together).symm
  have covers_of_given : ∀ ip startIp endIp text, Given entries startIp endIp text →
      startIp ≤ ip → ip ≤ endIp → ∃ offset, Covers result.ar ip offset := by
    rintro ip startIp endIp text ⟨before, after, split, _⟩ low high
    let record : BanRecord := ⟨startIp, endIp, UInt32.ofNat ([] ++ storedText before).length⟩
    have member : record ∈ list.ar := (records record).mpr (.inr ⟨before, after, split, rfl⟩)
    exact ⟨record.msgOffset, (covers ip _).mpr ⟨record, member, ⟨low, high⟩, rfl⟩⟩
  have search : ∀ ip, ∃ found, searchBanrecord result.ar ip = some found ∧
      (found.isSome ↔ ∃ startIp endIp text, Given entries startIp endIp text ∧
        startIp ≤ ip ∧ ip ≤ endIp) ∧
      ∀ record ∈ found, Covers result.ar ip record.msgOffset := by
    intro ip
    obtain ⟨found, read, answers⟩ := searchBanrecord_answers ascends ip
    refine ⟨found, read, ⟨fun is_some => ?_, fun ⟨startIp, endIp, text, given, low, high⟩ => ?_⟩,
      fun record same => ⟨record, (answers.1 record same).1, (answers.1 record same).2, rfl⟩⟩
    · obtain ⟨record, rfl⟩ := Option.isSome_iff_exists.mp is_some
      obtain ⟨member, holds⟩ := answers.1 record rfl
      obtain ⟨startIp, endIp, given⟩ := given_of_covers ip _ ⟨record, member, holds, rfl⟩
      exact ⟨startIp, endIp, _, given⟩
    · obtain ⟨offset, record, member, holds, _⟩ := covers_of_given ip startIp endIp text given low high
      cases found with
      | none => exact absurd holds (answers.2 rfl record member)
      | some record => rfl
  refine ⟨fun ip => ?_, fun ip => ?_⟩
  · obtain ⟨found, read, banned, _⟩ := search ip
    exact ⟨found, read, banned⟩
  · obtain ⟨found, read, banned, told⟩ := search ip
    refine ⟨found.map fun p => textAt result.msg p.msgOffset, ?_, ?_, fun text answered => ?_⟩
    · rw [inBanipListAddr_eq, read]
      rfl
    · rw [Option.isSome_map]
      exact banned
    · obtain ⟨record, same, rfl⟩ := Option.map_eq_some_iff.mp answered
      exact given_of_covers ip _ (told record same)

end Pttbbs.Common.BanIp
