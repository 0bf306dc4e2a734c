/-
What gives way when a record is inserted.

The buffer keeps the records of the boards in the order they were used.  Where a new one does
not fit, the others are cut down to their first entries, the one used longest ago first; then
the new one is; and only then are records dropped, again from the end.
-/

import Pttbbs.Lib.TailFirst
import Pttbbs.Mbbsd.BrcMarks

namespace Pttbbs.Mbbsd.ReadMarks

open Pttbbs.Lib

/-! ### Cutting down -/

theorem Record.eq_of_fields {left right : Record} (bid : left.bid = right.bid)
    (list : left.list = right.list) : left = right := by
  cases left
  cases right
  simp only at bid list
  subst bid
  subst list
  rfl

theorem Record.cut_cut (record : Record) : record.cut.cut = record.cut :=
  Record.eq_of_fields rfl (List.take_take.trans rfl)

theorem Record.cut_of_single {record : Record} (single : record.list.length = 1) :
    record.cut = record := by
  have same : record.cut.list = record.list := List.take_of_length_le (Nat.le_of_eq single)
  exact Record.eq_of_fields rfl same

def RoomFor (needed : Nat) (records : List Record) : Prop :=
  (encode records).length + needed ≤ brcMaxSize

instance (needed : Nat) (records : List Record) : Decidable (RoomFor needed records) :=
  inferInstanceAs (Decidable (_ ≤ _))

section Compaction

variable {brc : Brc} {records : List Record} {needed : Nat}

theorem Record.cut_of_refused {record : Record} {bid : UInt32} (other : record.bid ≠ bid)
    (refused : (record.bid ≠ bid && 1 < record.list.length) = false) : record.cut = record := by
  have some' := record.some'
  simp only [Bool.and_eq_false_iff, decide_eq_false_iff_not, not_not, Nat.not_lt] at refused
  have single := refused.resolve_left other
  exact Record.cut_of_single (by omega)

theorem brcCompact_least (fits : needed ≤ brcMaxSize) {bid : UInt32}
    (absent : ∀ record ∈ records, record.bid ≠ bid) {fuel : Nat}
    (holds : Holds brc (encode records)) (enough : brc.size ≤ fuel) :
    ∃ kept, Holds (brcCompact needed bid fuel brc) (encode (tailCut Record.cut kept records)) ∧
      LeastCut Record.cut (RoomFor needed) records kept := by
  induction fuel generalizing brc records with
  | zero =>
      have empty : records = [] := encode_length_eq_zero (by rw [← holds.size]; omega)
      subst empty
      refine ⟨0, holds, LeastCut.of_fits ?_⟩
      change 0 + needed ≤ brcMaxSize
      omega
  | succ fuel ih =>
      rw [brcCompact]
      split
      · rename_i full
        have noRoom : ¬ RoomFor needed records := by
          unfold RoomFor
          rw [← holds.size]
          omega
        rw [holds.content_eq]
        split
        · rename_i nothing
          have fixed : ∀ other ∈ records, other.cut = other := fun other member =>
            Record.cut_of_refused (absent other member) (lastRecord_none nothing other member)
          refine ⟨0, ?_, LeastCut.of_fixed fixed noRoom⟩
          rw [tailCut_of_fixed fixed]
          exact holds
        · rename_i place num found
          obtain ⟨before, record, after, rfl, accepted, refused, rfl, rfl⟩ :=
            lastRecord_encode found
          have fixed : ∀ other ∈ after, other.cut = other := fun other member =>
            Record.cut_of_refused
              (absent other (List.mem_append_right _ (List.mem_cons_of_mem _ member)))
              (refused other member)
          have smaller : (brc.cut (encode before).length record.list.length).size ≤ fuel := by
            simp only [Bool.and_eq_true, decide_eq_true_eq] at accepted
            change brc.size - (recordSize record.list.length - recordSize 1) ≤ fuel
            unfold recordSize recSize
            omega
          have others := (Reduced.of_cut before after record).absent absent
          obtain ⟨kept, held, least⟩ := ih others holds.cut smaller
          obtain ⟨kept', same, least'⟩ := LeastCut.step Record.cut_cut fixed noRoom least
          exact ⟨kept', same ▸ held, least'⟩
      · rename_i fine
        refine ⟨records.length, ?_, LeastCut.of_fits ?_⟩
        · rw [tailCut_length]
          exact holds
        · unfold RoomFor
          rw [← holds.size]
          omega

theorem brcCompactTailDrop_least (fits : needed ≤ brcMaxSize) {fuel : Nat}
    (holds : Holds brc (encode records)) (enough : brc.size ≤ fuel) :
    ∃ kept, Holds (brcCompactTailDrop needed fuel brc) (encode (records.take kept)) ∧
      LeastDrop (RoomFor needed) records kept ∧
      (brcCompactTailDrop needed fuel brc).buf = brc.buf := by
  induction fuel generalizing brc records with
  | zero =>
      have empty : records = [] := encode_length_eq_zero (by rw [← holds.size]; omega)
      subst empty
      refine ⟨0, holds, ⟨Nat.le_refl _, Or.inl rfl, ?_⟩, rfl⟩
      change 0 + needed ≤ brcMaxSize
      omega
  | succ fuel ih =>
      rw [brcCompactTailDrop]
      split
      · rename_i full
        have noRoom : ¬ RoomFor needed records := by
          unfold RoomFor
          rw [← holds.size]
          omega
        rw [holds.content_eq]
        split
        · rename_i nothing
          cases records with
          | nil =>
              have size := holds.size
              exact absurd size (Nat.ne_of_gt full.2)
          | cons first rest =>
              exact Bool.noConfusion (lastRecord_none nothing first List.mem_cons_self)
        · rename_i place num found
          obtain ⟨before, record, after, rfl, _accepted, refused, rfl, rfl⟩ :=
            lastRecord_encode found
          have last : after = [] := by
            cases after with
            | nil => rfl
            | cons other rest => exact Bool.noConfusion (refused other List.mem_cons_self)
          subst last
          have size := holds.size
          have held := holds.held
          rw [encode_append, encode_cons, List.length_append, List.length_append] at size
          rw [encode_append] at held
          have shorter : Holds { brc with size := (encode before).length } (encode before) :=
            ⟨rfl, (List.prefix_append _ _).trans held⟩
          have positive := record.bytes_pos
          obtain ⟨kept, held, least, same⟩ :=
            ih shorter (by change (encode before).length ≤ fuel; omega)
          refine ⟨kept, ?_, least.step noRoom, same⟩
          rw [List.take_append_of_le_length least.bound]
          exact held
      · rename_i fine
        refine ⟨records.length, ?_, ⟨Nat.le_refl _, Or.inl rfl, ?_⟩, rfl⟩
        · rw [List.take_length]
          exact holds
        · rw [List.take_length]
          unfold RoomFor
          rw [← holds.size]
          omega

end Compaction

/-! ### The order in which records give way -/

inductive Degrades (others : List Record) (record : Record) : Record → List Record → Prop
  /-- The others are cut down from the end, no more of them than must be. -/
  | shortened (kept : Nat)
      (least : LeastCut Record.cut (RoomFor (recordSize record.list.length)) others kept)
      (room : RoomFor (recordSize record.list.length) (tailCut Record.cut kept others)) :
      Degrades others record record (tailCut Record.cut kept others)
  /-- That is not enough, and the record itself is cut down. -/
  | own (full : ¬ RoomFor (recordSize record.list.length) (others.map Record.cut))
      (room : RoomFor (recordSize 1) (others.map Record.cut)) :
      Degrades others record record.cut (others.map Record.cut)
  /-- Neither is that, and others are dropped from the end. -/
  | dropped (kept : Nat) (full : ¬ RoomFor (recordSize 1) (others.map Record.cut))
      (least : LeastDrop (RoomFor (recordSize 1)) (others.map Record.cut) kept) :
      Degrades others record record.cut ((others.map Record.cut).take kept)

section InFront

variable {session : Session} {brc : Brc} {others : List Record} {record : Record}

theorem Degrades.from_others {kept other : Record} {left : List Record}
    (degrades : Degrades others record kept left) (member : other ∈ left) :
    other ∈ others ∨ ∃ source ∈ others, other = source.cut := by
  have cut : ∀ {list : List Record}, list ⊆ others → other ∈ list.map Record.cut →
      ∃ source ∈ others, other = source.cut := by
    intro list inside member
    obtain ⟨source, listed, same⟩ := List.mem_map.mp member
    exact ⟨source, inside listed, same.symm⟩
  cases degrades with
  | shortened kept least room =>
      rcases List.mem_append.mp member with first | rest
      · exact Or.inl (List.mem_of_mem_take first)
      · exact Or.inr (cut (List.drop_subset _ _) rest)
  | own full room => exact Or.inr (cut (List.Subset.refl _) member)
  | dropped kept full least => exact Or.inr (cut (List.Subset.refl _) (List.mem_of_mem_take member))

theorem Degrades.own_list {kept : Record} {left : List Record}
    (degrades : Degrades others record kept left) :
    kept.bid = record.bid ∧ (kept = record ∨ kept = record.cut) := by
  cases degrades with
  | shortened kept least room => exact ⟨rfl, Or.inl rfl⟩
  | own full room => exact ⟨rfl, Or.inr rfl⟩
  | dropped kept full least => exact ⟨rfl, Or.inr rfl⟩

theorem compacted_least (holds : Holds brc (encode others))
    (absent : ∀ other ∈ others, other.bid ≠ record.bid) :
    let full := recordSize record.list.length
    ∃ kept, Holds (if brcMaxSize < brc.size + full then brcCompact full record.bid brc.size brc
        else brc) (encode (tailCut Record.cut kept others)) ∧
      LeastCut Record.cut (RoomFor full) others kept := by
  intro full
  split
  · exact brcCompact_least (recordSize_fits record.fits) absent holds (Nat.le_refl _)
  · rename_i fine
    refine ⟨others.length, by rw [tailCut_length]; exact holds, LeastCut.of_fits ?_⟩
    unfold RoomFor
    rw [← holds.size]
    exact Nat.le_of_not_lt fine

theorem putInFront_eq (holds : Holds brc (encode others))
    (absent : ∀ other ∈ others, other.bid ≠ record.bid) :
    ∃ kept left dropped, Degrades others record kept left ∧ Holds dropped (encode left) ∧
      recordSize kept.list.length + dropped.size ≤ dropped.buf.length ∧
      brc.putInFront session record.bid record.list =
        { dropped with
          buf := brcPutRecord session
            (memmove dropped.buf (recordSize kept.list.length) 0 dropped.size)
            (recordSize kept.list.length) record.bid kept.list
          size := dropped.size + recordSize kept.list.length } := by
  obtain ⟨count, held, least⟩ := compacted_least holds absent
  unfold Brc.putInFront
  dsimp only at held ⊢
  generalize (if brcMaxSize < brc.size + recordSize record.list.length then
    brcCompact (recordSize record.list.length) record.bid brc.size brc else brc) = compacted
    at held ⊢
  have size := held.size
  -- Room in memory, whatever is written.
  have enlarged := fun newSize => @Holds.enlarged session compacted _ held newSize
  by_cases room : RoomFor (recordSize record.list.length) (tailCut Record.cut count others)
  · have fine : ¬ brcMaxSize < compacted.size + recordSize record.list.length := by
      unfold RoomFor at room
      omega
    obtain ⟨holds', space⟩ := enlarged (recordSize record.list.length)
    have keptList : (if brcMaxSize < compacted.size + recordSize record.list.length ∧
        1 < record.list.length then record.list.take 1 else record.list) = record.list :=
      if_neg fun both => fine both.1
    rw [keptList, if_neg fine, if_pos (Nat.le_of_not_lt fine)]
    refine ⟨record, _, _, Degrades.shortened count least room, holds', ?_, rfl⟩
    change _ + compacted.size ≤ (enlargeFor _ _ _ _).length
    omega
  · have all : count = 0 := least.enough.resolve_left room
    subst all
    rw [tailCut_zero] at held room size
    have full : brcMaxSize < compacted.size + recordSize record.list.length := by
      unfold RoomFor at room
      omega
    have keptList : (if brcMaxSize < compacted.size + recordSize record.list.length ∧
        1 < record.list.length then record.list.take 1 else record.list) = record.cut.list := by
      split
      · rfl
      · rename_i short
        have single : record.list.length = 1 := by
          have some' := record.some'
          omega
        rw [Record.cut_of_single single]
    rw [keptList]
    obtain ⟨holds', space⟩ := enlarged (recordSize record.cut.list.length)
    rw [tailCut_zero] at holds'
    have fits := recordSize_fits record.cut.fits
    generalize enlargeFor session (compacted.size + recordSize record.cut.list.length) brcMaxSize
      (if compacted.buf = [] then brcGetBuf session (recordSize record.cut.list.length)
        else compacted.buf) = buf at holds' space ⊢
    by_cases small : RoomFor (recordSize 1) (others.map Record.cut)
    · have fine : ¬ brcMaxSize < compacted.size + recordSize record.cut.list.length := by
        unfold RoomFor at small
        rw [record.cut_length]
        omega
      rw [if_neg fine, if_pos (Nat.le_of_not_lt fine)]
      refine ⟨record.cut, _, { compacted with buf := buf }, Degrades.own room small, holds', ?_, rfl⟩
      change _ + compacted.size ≤ buf.length
      omega
    · have more : brcMaxSize < compacted.size + recordSize record.cut.list.length := by
        unfold RoomFor at small
        rw [record.cut_length]
        omega
      obtain ⟨left, dropped, least, same⟩ := brcCompactTailDrop_least fits holds'
        (Nat.le_refl compacted.size)
      rw [if_pos more]
      generalize brcCompactTailDrop (recordSize record.cut.list.length) compacted.size
        { compacted with buf := buf } = after at dropped same ⊢
      rw [record.cut_length] at least
      have enough := least.enough
      have size := dropped.size
      unfold RoomFor at enough
      have rest : after.size + recordSize record.cut.list.length ≤ brcMaxSize := by
        rw [record.cut_length]
        omega
      rw [if_pos rest]
      refine ⟨record.cut, _, after, Degrades.dropped left small least, dropped, ?_, rfl⟩
      rw [same]
      change _ ≤ buf.length
      omega

end InFront

/-! ### One insertion -/

def othersOf (records : List Record) (bid : UInt32) : List Record :=
  records.filter fun record => record.bid ≠ bid

def KeepsRead (session : Session) (brc after : Brc) (bid : UInt32) : Prop :=
  ∀ g m, brcUnreadTime session brc bid g m = 0 → brcUnreadTime session after bid g m = 0

def unexpired (session : Session) (list : List BrcRec) : List BrcRec :=
  list.filter fun entry => session.expireTime ≤ entry.create

/-- The record of the board comes first, the others give way in their order, and no read
article becomes unread where a record is cut down. -/
structure Stored (session : Session) (brc after : Brc) (records : List Record) (bid : UInt32)
    (list : List BrcRec) (kept : Record) (left : List Record) : Prop where
  degrades : ∃ record : Record, record.bid = bid ∧ record.list = unexpired session list ∧
    Degrades (othersOf records bid) record kept left
  holds : Holds after (encode (kept :: left))
  others : ∀ other ∈ left, KeepsRead session brc after other.bid
  own : ∀ g m, unreadIn g m list = 0 → unreadIn g m kept.list = 0

def InsertsRecord (session : Session) (brc : Brc) (records : List Record) (bid : UInt32)
    (list : List BrcRec) : Prop :=
  if unexpired session list = [] then
    Holds (brcInsertRecord session bid list brc) (encode (othersOf records bid))
  else ∃ kept left,
    Stored session brc (brcInsertRecord session bid list brc) records bid list kept left

section Kept

variable {session : Session} {brc after : Brc} {records : List Record} {bid : UInt32}

theorem brcUnreadTime_eq (session : Session) (brc : Brc) (bid g m : UInt32) :
    brcUnreadTime session brc bid g m = if g ≤ session.expireTime then 0
      else if brcListOf brc bid = [] then 1 else unreadIn g m (brcListOf brc bid) := rfl

theorem keepsRead_of_take {count : Nat} (some : (brcListOf brc bid).take count ≠ [])
    (shorter : brcListOf after bid = (brcListOf brc bid).take count) :
    KeepsRead session brc after bid := by
  intro g m read
  rw [brcUnreadTime_eq] at read ⊢
  split
  · rfl
  · rename_i recent
    have held : brcListOf brc bid ≠ [] := by
      intro none
      rw [none] at some
      exact some List.take_nil
    rw [if_neg recent, if_neg held] at read
    rw [shorter, if_neg some]
    rcases @unreadIn_take (brcListOf brc bid) g m count with same | ⟨_, zero⟩
    · rw [same, read]
    · exact zero

theorem Holds.marks_of_mem (holds : Holds brc (encode records))
    (nodup : (records.map Record.bid).Nodup) {record : Record} (member : record ∈ records) :
    marks brc record.bid = some record.list := by
  obtain ⟨before, rest, rfl⟩ := List.append_of_mem member
  have whole : Holds brc (encode (before ++ record :: rest) ++ []) := by
    rw [List.append_nil]
    exact holds
  apply whole.marks_found
  intro other inside same
  rw [List.map_append, List.map_cons, List.nodup_middle, List.nodup_cons] at nodup
  apply nodup.1
  rw [← same]
  exact List.mem_append_left _ (List.mem_map_of_mem inside)

theorem Degrades.bids {others left : List Record} {record kept : Record}
    (degrades : Degrades others record kept left) :
    (left.map Record.bid).Sublist (others.map Record.bid) := by
  have cut : ∀ list : List Record, (list.map Record.cut).map Record.bid = list.map Record.bid := by
    intro list
    rw [List.map_map]
    rfl
  cases degrades with
  | shortened kept least room =>
      unfold tailCut
      rw [List.map_append, cut, ← List.map_append, List.take_append_drop]
  | own full room => rw [cut]
  | dropped kept full least =>
      rw [List.map_take, cut]
      exact List.take_sublist _ _

theorem Degrades.keepsRead {record kept : Record} {left : List Record}
    (degrades : Degrades (othersOf records bid) record kept left) (own : record.bid = bid)
    (nodup : (records.map Record.bid).Nodup) (holds : Holds brc (encode records))
    (holds' : Holds after (encode (kept :: left))) (list : after.list = brc.list)
    (board : after.currbid = brc.currbid) : ∀ other ∈ left, KeepsRead session brc after other.bid := by
  intro other member
  have absent : ∀ source ∈ othersOf records bid, source.bid ≠ bid := fun source member => by
    simpa using (List.mem_filter.mp member).2
  have listed : othersOf records bid ⊆ records := List.filter_subset_self _
  have nodup' : ((kept :: left).map Record.bid).Nodup := by
    rw [List.map_cons, List.nodup_cons]
    have sublist := degrades.bids
    constructor
    · intro inside
      obtain ⟨source, inOthers, same⟩ := List.mem_map.mp (sublist.subset inside)
      exact absent source inOthers (same.trans (degrades.own_list.1.trans own))
    · exact sublist.nodup ((List.filter_sublist.map Record.bid).nodup nodup)
  by_cases current : brc.currbid ≠ 0 ∧ other.bid = brc.currbid
  · -- The list of the current board is not in the buffer.
    have same : brcListOf after other.bid = brcListOf brc other.bid := by
      unfold brcListOf
      rw [board, if_pos current, if_pos current, list]
    intro g m read
    rw [brcUnreadTime_eq] at read ⊢
    rw [same]
    exact read
  · have afterList : brcListOf after other.bid = other.list := by
      unfold brcListOf
      rw [board, if_neg current, brcFindRecord_eq,
        holds'.marks_of_mem nodup' (List.mem_cons_of_mem _ member)]
      rfl
    have beforeList : ∀ source ∈ records, source.bid = other.bid →
        brcListOf brc other.bid = source.list := by
      intro source member same
      unfold brcListOf
      rw [if_neg current, brcFindRecord_eq, ← same, holds.marks_of_mem nodup member]
      rfl
    have some : other.list ≠ [] := List.length_pos_iff.mp other.some'
    rcases degrades.from_others member with same | ⟨source, inOthers, rfl⟩
    · have before := beforeList other (listed same) rfl
      apply @keepsRead_of_take session brc after other.bid other.list.length
      · rw [before, List.take_length]
        exact some
      · rw [before, List.take_length, afterList]
    · have before := beforeList source (listed inOthers) rfl
      apply @keepsRead_of_take session brc after source.cut.bid 1
      · rw [before]
        exact some
      · rw [before, afterList]
        rfl

end Kept

/-! ### Where the record is written -/

def memoryOf (session : Session) (brc : Brc) : Bytes :=
  enlargeFor session (recordSize 1) brcMaxSize
    (if brc.buf = [] then brcGetBuf session (recordSize 1) else brc.buf)

/-- Nothing is to be written, or `brc_putrecord` writes it, or it is what the memory holds. -/
def IsWritten (session : Session) (brc : Brc) (bid : UInt32) (list : List BrcRec) : Prop :=
  unexpired session list = [] ∨ Current session (unexpired session list) ∨
    recordBytes bid (unexpired session list) <+: memoryOf session brc

section Insertion

variable {session : Session} {brc : Brc} {records : List Record} {bid : UInt32}
  {list : List BrcRec}

theorem trim_eq_unexpired (descending : StrictlyDescending list) :
    trim session list = unexpired session list := by
  obtain ⟨dropped, split, expired⟩ := trim_append session list
  have none : dropped.filter (fun entry => session.expireTime ≤ entry.create) = [] := by
    rw [List.filter_eq_nil_iff]
    intro entry member kept
    exact UInt32.not_le.mpr (expired entry member) (by simpa using kept)
  have all : ∀ entry ∈ trim session list, session.expireTime ≤ entry.create := by
    intro entry member
    unfold trim at member
    rw [List.mem_reverse] at member
    have ascending : (list.reverse.dropWhile
        fun entry => entry.create < session.expireTime).Pairwise
        fun older newer => older.create < newer.create :=
      (List.pairwise_reverse.mpr descending).sublist (List.dropWhile_sublist _)
    have last := List.head?_dropWhile_not
      (fun entry : BrcRec => decide (entry.create < session.expireTime)) list.reverse
    cases kept : list.reverse.dropWhile fun entry => entry.create < session.expireTime with
    | nil =>
        rw [kept] at member
        cases member
    | cons oldest rest =>
        rw [kept] at member ascending last
        have bound : session.expireTime ≤ oldest.create := by simpa using last
        rcases List.mem_cons.mp member with rfl | newer
        · exact bound
        · exact UInt32.le_trans bound
            (UInt32.le_of_lt ((List.pairwise_cons.mp ascending).1 entry newer))
  unfold unexpired
  rw [split, List.filter_append, none, List.append_nil, ← split]
  exact (List.filter_eq_self.mpr fun entry member => by simpa using all entry member).symm

theorem unexpired_single (descending : StrictlyDescending list)
    (some : unexpired session list ≠ []) (old : ¬ Current session (unexpired session list)) :
    (unexpired session list).length = 1 := by
  have sorted : StrictlyDescending (unexpired session list) := descending.sublist List.filter_sublist
  have late : ∀ entry ∈ unexpired session list, session.expireTime ≤ entry.create :=
    fun entry member => by simpa using (List.mem_filter.mp member).2
  match whole : unexpired session list with
  | [] => exact absurd whole some
  | [_] => rfl
  | first :: second :: rest =>
      rw [whole] at sorted late old
      have above := (List.pairwise_cons.mp sorted).1 second List.mem_cons_self
      have bound := late second (List.mem_cons_of_mem _ List.mem_cons_self)
      exact absurd ⟨first, rfl, UInt32.lt_of_le_of_lt bound above⟩ old

theorem takeOut_holds (holds : Holds brc (encode records))
    (nodup : (records.map Record.bid).Nodup) :
    Holds (brc.takeOut (brcFindRecordIn brc.content bid)) (encode (othersOf records bid)) := by
  have whole : Holds brc (encode records ++ []) := by
    rw [List.append_nil]
    exact holds
  rcases whole.search dangling_nil nodup bid with
    ⟨absent, search⟩ | ⟨before, old, after, rfl, same, others, search⟩
  · have all : othersOf records bid = records :=
      List.filter_eq_self.mpr fun record member => by simpa using absent record member
    rw [search, all, List.length_nil, if_neg (Nat.not_lt_zero _)]
    exact ⟨holds.size, holds.held⟩
  · have out : othersOf (before ++ old :: after) bid = before ++ after := by
      unfold othersOf
      rw [List.filter_append, List.filter_cons_of_neg (by simpa using same), ← List.filter_append]
      exact List.filter_eq_self.mpr fun record member => by simpa using others record member
    have taken := whole.takeOut_found
    rw [search, out]
    rw [List.append_nil] at taken
    exact taken

theorem recordSize_inj {first second : Nat} :
    recordSize first = recordSize second ↔ first = second := by
  unfold recordSize recSize
  omega

theorem brcInsertRecord_eq :
    brcInsertRecord session bid list brc =
      if trim session list = [] then
        { brc.takeOut (brcFindRecordIn brc.content bid) with changed := false }
      else if brcFindRecordIn brc.content bid = .found 0 (trim session list).length then
        { brc with
          buf := brcPutRecord session brc.buf (recordSize (trim session list).length) bid
            (trim session list)
          changed := false }
      else
        { (brc.takeOut (brcFindRecordIn brc.content bid)).putInFront session bid
            (trim session list) with changed := false } := by
  cases search : brcFindRecordIn brc.content bid with
  | missing dangling =>
      have elsewhere : Search.missing dangling ≠ .found 0 (trim session list).length := nofun
      rw [brcInsertRecord_missing search, if_neg elsewhere]
  | found offset num =>
      rw [brcInsertRecord_found search]
      by_cases none : trim session list = []
      · rw [if_pos none, if_pos none, if_neg fun place => place.2.1 none]
      · rw [if_neg none, if_neg none]
        simp only [Search.found.injEq, recordSize_inj, none, not_false_eq_true, true_and, ne_eq,
          eq_comm]

theorem stored_of_holds {kept record : Record} {left : List Record}
    (holds : Holds brc (encode records)) (nodup : (records.map Record.bid).Nodup)
    (own : record.bid = bid) (entries : record.list = unexpired session list)
    (shorter : unexpired session list <+: list)
    (degrades : Degrades (othersOf records bid) record kept left)
    (holds' : Holds (brcInsertRecord session bid list brc) (encode (kept :: left))) :
    Stored session brc (brcInsertRecord session bid list brc) records bid list kept left where
  degrades := ⟨record, own, entries, degrades⟩
  holds := holds'
  others := degrades.keepsRead own nodup holds holds'
    (brcInsertRecord_list session bid list brc) (brcInsertRecord_currbid session bid list brc)
  own := by
    intro g m read
    have beginning : kept.list <+: list := by
      rcases degrades.own_list.2 with rfl | rfl
      · rw [entries]
        exact shorter
      · exact (List.take_prefix 1 _).trans (entries ▸ shorter)
    have taken := List.prefix_iff_eq_take.mp beginning
    rw [taken]
    rcases @unreadIn_take list g m kept.list.length with same | ⟨_, zero⟩
    · rw [same, read]
    · exact zero

theorem inPlace_split (holds : Holds brc (encode records)) (nodup : (records.map Record.bid).Nodup)
    {num : Nat} (inPlace : brcFindRecordIn brc.content bid = .found 0 num) :
    ∃ old rest, records = old :: rest ∧ old.bid = bid ∧ old.list.length = num ∧
      othersOf records bid = rest := by
  have whole : Holds brc (encode records ++ []) := by
    rw [List.append_nil]
    exact holds
  rcases whole.search dangling_nil nodup bid with
    ⟨absent, search⟩ | ⟨before, old, after, rfl, same, others, search⟩
  · rw [search] at inPlace
    cases inPlace
  · rw [search] at inPlace
    obtain ⟨start, count⟩ := Search.found.inj inPlace
    obtain rfl := encode_length_eq_zero start
    refine ⟨old, after, rfl, same, count, ?_⟩
    unfold othersOf
    rw [List.nil_append, List.filter_cons_of_neg (by simpa using same)]
    exact List.filter_eq_self.mpr fun record member => by simpa using others record member

theorem degrades_inPlace {old record : Record} {rest : List Record}
    (holds : Holds brc (encode (old :: rest))) (small : brc.size ≤ brcMaxSize)
    (same : old.list.length = record.list.length) : Degrades rest record record rest := by
  have room : RoomFor (recordSize record.list.length) rest := by
    have size := holds.size
    rw [encode_cons, List.length_append, old.bytes_length, same] at size
    unfold RoomFor
    omega
  have unchanged := Degrades.shortened rest.length (LeastCut.of_fits room)
    (by rw [tailCut_length]; exact room)
  rw [tailCut_length] at unchanged
  exact unchanged

theorem insertsRecord_of_current (holds : Holds brc (encode records))
    (nodup : (records.map Record.bid).Nodup) (small : brc.size ≤ brcMaxSize)
    (descending : StrictlyDescending list) (bounded : list.length ≤ brcMaxNum)
    (current : Current session (unexpired session list)) :
    InsertsRecord session brc records bid list := by
  have trimmed := @trim_eq_unexpired session list descending
  have some : unexpired session list ≠ [] := by
    intro none
    obtain ⟨first, isHead, _⟩ := current
    rw [none] at isHead
    cases isHead
  have shorter : unexpired session list <+: list := trimmed ▸ prefix_trim session list
  let record : Record :=
    { bid, list := unexpired session list, some' := List.length_pos_iff.mpr some
      fits := shorter.length_le.trans bounded }
  unfold InsertsRecord
  rw [if_neg some]
  have inserted := @brcInsertRecord_eq session brc bid list
  rw [trimmed, if_neg some] at inserted
  by_cases inPlace : brcFindRecordIn brc.content bid = .found 0 (unexpired session list).length
  · rw [if_pos inPlace] at inserted
    obtain ⟨old, rest, rfl, sameBid, count, others⟩ := inPlace_split holds nodup inPlace
    have degrades : Degrades (othersOf (old :: rest) bid) record record rest := by
      rw [others]
      exact degrades_inPlace holds small count
    refine ⟨record, rest, stored_of_holds holds nodup rfl rfl shorter degrades ?_⟩
    rw [encode_cons] at holds
    rw [inserted, encode_cons]
    exact @Holds.overwritten session brc record _ _ holds current (congrArg recordSize count.symm)
  · rw [if_neg inPlace] at inserted
    have out := @takeOut_holds brc records bid holds nodup
    obtain ⟨kept, left, dropped, degrades, held, room, put⟩ :=
      @putInFront_eq session _ _ record out fun other member => by
        simpa using (List.mem_filter.mp member).2
    refine ⟨kept, left, stored_of_holds holds nodup rfl rfl shorter degrades ?_⟩
    have keptCurrent : Current session kept.list := by
      rcases degrades.own_list.2 with rfl | rfl
      · exact current
      · exact current.take_one
    have written := held.written keptCurrent room
    rw [degrades.own_list.1, ← put] at written
    rw [inserted, encode_cons]
    exact ⟨written.size, written.held⟩

end Insertion

/-! ### A record that is not written -/

section Old

variable {session : Session} {brc : Brc} {records : List Record} {bid : UInt32}
  {list : List BrcRec}

theorem buf_prefix_memoryOf : brc.buf <+: memoryOf session brc := by
  refine List.IsPrefix.trans ?_ (prefix_enlargeFor session _ _ _)
  split
  · rename_i none
    rw [none]
    exact List.nil_prefix
  · exact List.prefix_rfl

theorem Stored.front {after : Brc} {kept : Record} {left : List Record}
    (stored : Stored session brc after records bid list kept left)
    (single : (unexpired session list).length = 1) :
    recordBytes bid (unexpired session list) <+: after.buf := by
  obtain ⟨record, own, entries, degrades⟩ := stored.degrades
  have one : record.list.length = 1 := by rw [entries, single]
  have same : kept = record := by
    rcases degrades.own_list.2 with same | same
    · exact same
    · exact same.trans (Record.cut_of_single one)
  have held := stored.holds.held
  rw [encode_cons, same, Record.bytes, own, entries] at held
  exact (List.prefix_append _ _).trans held

theorem brcReadBid_of_take {memory : Bytes} {entries : List BrcRec}
    (front : recordBytes bid entries <+: memory) : brcReadBid memory = bid := by
  obtain ⟨rest, rfl⟩ := front
  exact brcReadBid_recordBytes bid entries rest

theorem brcReadBid_memmove {memory : Bytes} {target source count : Nat} (room : 4 ≤ target)
    (inside : target ≤ memory.length) :
    brcReadBid (memmove memory target source count) = brcReadBid memory := by
  have length : (memory.take target).length = target := by
    rw [List.length_take]
    exact Nat.min_eq_left inside
  unfold brcReadBid memmove
  rw [List.append_assoc, List.take_append_of_le_length (by omega), List.take_take,
    Nat.min_eq_left room]

theorem Degrades.left_ne_nil {others left : List Record} {record kept : Record}
    (degrades : Degrades others record kept left) (some : others ≠ []) : left ≠ [] := by
  cases degrades with
  | shortened kept least room =>
      intro none
      have length := congrArg List.length none
      rw [length_tailCut] at length
      exact some (List.length_eq_zero_iff.mp length)
  | own full room => exact fun none => some (List.map_eq_nil_iff.mp none)
  | dropped kept full least =>
      intro none
      rcases List.take_eq_nil_iff.mp none with zero | none
      · rcases least.least with all | noRoom
        · rw [zero, List.length_map] at all
          exact some (List.length_eq_zero_iff.mp all.symm)
        · rw [zero] at noRoom
          obtain ⟨first, rest, rfl⟩ := List.exists_cons_of_ne_nil some
          have length : (encode [first.cut]).length = recordSize 1 := by
            rw [encode_cons, List.length_append, first.cut.bytes_length, first.cut_length]
            rfl
          apply noRoom
          change (encode [first.cut]).length + recordSize 1 ≤ brcMaxSize
          rw [length]
          decide
      · exact some (List.map_eq_nil_iff.mp none)

theorem not_stored_of_others (holds : Holds brc (encode records))
    (nodup : (records.map Record.bid).Nodup) (descending : StrictlyDescending list)
    (bounded : list.length ≤ brcMaxNum) (some : unexpired session list ≠ [])
    (old : ¬ Current session (unexpired session list))
    (elsewhere : brcFindRecordIn brc.content bid ≠ .found 0 (unexpired session list).length)
    (others : othersOf records bid ≠ []) :
    ¬ InsertsRecord session brc records bid list := by
  have trimmed := @trim_eq_unexpired session list descending
  have single := unexpired_single descending some old
  have shorter : unexpired session list <+: list := trimmed ▸ prefix_trim session list
  let record : Record :=
    { bid, list := unexpired session list, some' := List.length_pos_iff.mpr some
      fits := shorter.length_le.trans bounded }
  have inserted := @brcInsertRecord_eq session brc bid list
  rw [trimmed, if_neg some, if_neg elsewhere] at inserted
  have absent : ∀ other ∈ othersOf records bid, other.bid ≠ bid := fun other member => by
    simpa using (List.mem_filter.mp member).2
  obtain ⟨kept, left, dropped, degrades, held, room, put⟩ :=
    @putInFront_eq session _ _ record (@takeOut_holds brc records bid holds nodup) absent
  intro inserts
  unfold InsertsRecord at inserts
  rw [if_neg some] at inserts
  obtain ⟨_kept, _left, stored⟩ := inserts
  have front := stored.front single
  have keptOld : ¬ Current session kept.list := by
    rcases degrades.own_list.2 with rfl | same
    · exact old
    · rw [same, Record.cut_of_single single]
      exact old
  obtain ⟨first, rest, rfl⟩ := List.exists_cons_of_ne_nil (degrades.left_ne_nil others)
  have another : first.bid ≠ bid := by
    intro same
    have inside := degrades.bids.subset (List.mem_map_of_mem List.mem_cons_self)
    obtain ⟨source, member, equal⟩ := List.mem_map.mp inside
    exact absent source member (equal.trans same)
  -- The memory is moved up and what was in front is still there.
  rw [inserted, put] at front
  change _ <+: brcPutRecord session _ _ _ _ at front
  rw [brcPutRecord_old keptOld] at front
  apply another
  have large : 4 ≤ recordSize kept.list.length := by
    unfold recordSize headerSize
    omega
  have moved := brcReadBid_of_take front
  rw [brcReadBid_memmove large (by omega)] at moved
  have beginning := held.held
  rw [encode_cons] at beginning
  rw [← moved]
  exact (brcReadBid_of_take ((List.prefix_append _ _).trans beginning)).symm

theorem inPlace_of_memory {entries : List BrcRec} (holds : Holds brc (encode records))
    (fits : entries.length ≤ brcMaxNum) (some : records ≠ [])
    (front : recordBytes bid entries <+: memoryOf session brc) :
    brcFindRecordIn brc.content bid = .found 0 entries.length := by
  obtain ⟨first, rest, rfl⟩ := List.exists_cons_of_ne_nil some
  have held := holds.held.trans (@buf_prefix_memoryOf session brc)
  rw [encode_cons] at held
  have beginning : first.bytes <+: memoryOf session brc := (List.prefix_append _ _).trans held
  have sameBid : first.bid = bid :=
    (brcReadBid_of_take beginning).symm.trans (brcReadBid_of_take front)
  have sameNum : first.list.length = entries.length := by
    obtain ⟨after, split⟩ := beginning
    obtain ⟨after', split'⟩ := front
    have own : brcReadNum (first.bytes ++ after) = first.list.length :=
      brcReadNum_recordBytes _ first.fits
    have new : brcReadNum (recordBytes bid entries ++ after') = entries.length :=
      brcReadNum_recordBytes _ fits
    rw [← own, ← new, split, split']
  have whole : brc.content = encode ([] ++ first :: rest) ++ [] := by
    rw [List.append_nil]
    exact holds.content_eq
  have absent : ∀ other ∈ ([] : List Record), other.bid ≠ first.bid := nofun
  rw [← sameBid, ← sameNum]
  exact brcFindRecordIn_found absent whole

theorem insertsRecord_inPlace_iff (holds : Holds brc (encode records))
    (nodup : (records.map Record.bid).Nodup) (small : brc.size ≤ brcMaxSize)
    (descending : StrictlyDescending list) (bounded : list.length ≤ brcMaxNum)
    (some : unexpired session list ≠ []) (old : ¬ Current session (unexpired session list))
    (inPlace : brcFindRecordIn brc.content bid = .found 0 (unexpired session list).length) :
    InsertsRecord session brc records bid list ↔
      recordBytes bid (unexpired session list) <+: memoryOf session brc := by
  have trimmed := @trim_eq_unexpired session list descending
  have single := unexpired_single descending some old
  have shorter : unexpired session list <+: list := trimmed ▸ prefix_trim session list
  have inserted := @brcInsertRecord_eq session brc bid list
  rw [trimmed, if_neg some, if_pos inPlace, brcPutRecord_old old] at inserted
  unfold InsertsRecord
  rw [if_neg some]
  constructor
  · rintro ⟨kept, left, stored⟩
    have front := stored.front single
    rw [inserted] at front
    exact front.trans buf_prefix_memoryOf
  · intro front
    obtain ⟨first, rest, rfl, sameBid, count, others⟩ := inPlace_split holds nodup inPlace
    let record : Record :=
      { bid, list := unexpired session list, some' := List.length_pos_iff.mpr some
        fits := shorter.length_le.trans bounded }
    have degrades : Degrades (othersOf (first :: rest) bid) record record rest := by
      rw [others]
      exact degrades_inPlace holds small count
    refine ⟨record, rest, stored_of_holds holds nodup rfl rfl shorter degrades ?_⟩
    have held := holds.held.trans (@buf_prefix_memoryOf session brc)
    rw [encode_cons] at held
    have same : first.bytes = record.bytes := by
      apply List.IsPrefix.eq_of_length
        (List.prefix_of_prefix_length_le ((List.prefix_append _ _).trans held) front ?_)
      · rw [first.bytes_length, recordBytes_length, count]
      · rw [first.bytes_length, recordBytes_length, count]
    rw [inserted, encode_cons, ← same, ← encode_cons]
    exact ⟨holds.size, holds.held⟩

theorem memmove_nothing (memory : Bytes) (target source : Nat) :
    memmove memory target source 0 = memory := by
  unfold memmove
  rw [List.take_zero, List.append_nil, Nat.add_zero, List.take_append_drop]

theorem takeOut_alone (holds : Holds brc (encode records))
    (nodup : (records.map Record.bid).Nodup) (alone : othersOf records bid = []) :
    (brc.takeOut (brcFindRecordIn brc.content bid)).buf = brc.buf := by
  have out := (@takeOut_holds brc records bid holds nodup).size
  rw [alone] at out
  cases search : brcFindRecordIn brc.content bid with
  | missing dangling => rfl
  | found offset num =>
      rw [search] at out
      change brc.size - recordSize num = 0 at out
      have nothing : brc.size - (offset + recordSize num) = 0 := by omega
      change memmove brc.buf offset _ _ = brc.buf
      rw [nothing, memmove_nothing]

theorem putInFront_alone {entries : List BrcRec} (old : ¬ Current session entries)
    (single : entries.length = 1) (empty : brc.size = 0) :
    (brc.putInFront session bid entries).buf = memoryOf session brc ∧
      (brc.putInFront session bid entries).size = recordSize 1 := by
  have fine : ¬ brcMaxSize < recordSize 1 := by decide
  unfold Brc.putInFront
  simp only [empty, single, Nat.zero_add, if_neg fine, Nat.lt_irrefl, and_false, if_false,
    if_pos (Nat.le_of_not_lt fine), brcPutRecord_old old, memmove_nothing]
  exact ⟨rfl, trivial⟩

theorem insertsRecord_alone_iff (holds : Holds brc (encode records))
    (nodup : (records.map Record.bid).Nodup) (descending : StrictlyDescending list)
    (bounded : list.length ≤ brcMaxNum) (some : unexpired session list ≠ [])
    (old : ¬ Current session (unexpired session list))
    (elsewhere : brcFindRecordIn brc.content bid ≠ .found 0 (unexpired session list).length)
    (alone : othersOf records bid = []) :
    InsertsRecord session brc records bid list ↔
      recordBytes bid (unexpired session list) <+: memoryOf session brc := by
  have trimmed := @trim_eq_unexpired session list descending
  have single := unexpired_single descending some old
  have shorter : unexpired session list <+: list := trimmed ▸ prefix_trim session list
  have inserted := @brcInsertRecord_eq session brc bid list
  rw [trimmed, if_neg some, if_neg elsewhere] at inserted
  have out := @takeOut_holds brc records bid holds nodup
  rw [alone] at out
  have sameBuf := @takeOut_alone brc records bid holds nodup alone
  have after : (brcInsertRecord session bid list brc).buf = memoryOf session brc ∧
      (brcInsertRecord session bid list brc).size = recordSize 1 := by
    have put := @putInFront_alone session _ bid _ old single out.size
    unfold memoryOf at put ⊢
    rw [sameBuf] at put
    rw [inserted]
    exact put
  unfold InsertsRecord
  rw [if_neg some]
  constructor
  · rintro ⟨kept, left, stored⟩
    have front := stored.front single
    rw [after.1] at front
    exact front
  · intro front
    let record : Record :=
      { bid, list := unexpired session list, some' := List.length_pos_iff.mpr some
        fits := shorter.length_le.trans bounded }
    have room : RoomFor (recordSize record.list.length) [] := by
      change (encode []).length + recordSize (unexpired session list).length ≤ brcMaxSize
      rw [single]
      decide
    have degrades : Degrades (othersOf records bid) record record [] := by
      rw [alone]
      exact Degrades.shortened 0 (LeastCut.of_fits room) room
    refine ⟨record, [], stored_of_holds holds nodup rfl rfl shorter degrades ?_⟩
    have whole : encode [record] = recordBytes bid (unexpired session list) := List.append_nil _
    rw [whole]
    refine ⟨?_, after.1 ▸ front⟩
    rw [after.2, recordBytes_length, single]

end Old

/-! ### The order of the fallbacks -/

/-- For every buffer of records and every list in its order: the record of the board comes
first with what is not expired, the others give way one after another from the end, and
nothing that is read becomes unread, exactly where the record is written or nothing is. -/
theorem insertsRecord_iff {session : Session} {brc : Brc} {records : List Record} {bid : UInt32}
    {list : List BrcRec} (holds : Holds brc (encode records))
    (nodup : (records.map Record.bid).Nodup) (small : brc.size ≤ brcMaxSize)
    (descending : StrictlyDescending list) (bounded : list.length ≤ brcMaxNum) :
    InsertsRecord session brc records bid list ↔ IsWritten session brc bid list := by
  have shorter : unexpired session list <+: list :=
    @trim_eq_unexpired session list descending ▸ prefix_trim session list
  by_cases none : unexpired session list = []
  · refine ⟨fun _ => Or.inl none, fun _ => ?_⟩
    have out := @takeOut_holds brc records bid holds nodup
    unfold InsertsRecord
    rw [if_pos none, brcInsertRecord_eq, if_pos ((trim_eq_unexpired descending).trans none)]
    exact ⟨out.size, out.held⟩
  · by_cases current : Current session (unexpired session list)
    · exact ⟨fun _ => Or.inr (Or.inl current),
        fun _ => insertsRecord_of_current holds nodup small descending bounded current⟩
    · have memory : IsWritten session brc bid list ↔
          recordBytes bid (unexpired session list) <+: memoryOf session brc := by
        unfold IsWritten
        rw [or_iff_right none, or_iff_right current]
      rw [memory]
      by_cases inPlace :
          brcFindRecordIn brc.content bid = .found 0 (unexpired session list).length
      · exact insertsRecord_inPlace_iff holds nodup small descending bounded none current inPlace
      · by_cases alone : othersOf records bid = []
        · exact insertsRecord_alone_iff holds nodup descending bounded none current inPlace alone
        · have held : records ≠ [] := by
            rintro rfl
            exact alone rfl
          constructor
          · intro inserts
            exact absurd inserts
              (not_stored_of_others holds nodup descending bounded none current inPlace alone)
          · intro front
            exact absurd (inPlace_of_memory holds (shorter.length_le.trans bounded) held front)
              inPlace

theorem oneBoard_encode : Holds oneBoard (encode [truncated 5 200]) := by
  have holds := oneBoard_holds
  rw [List.append_nil] at holds
  exact holds

/-- A board with two marks and an expired one, before another one. -/
theorem insertsRecord_twoMarks :
    InsertsRecord { expireTime := 100 } oneBoard [truncated 5 200] 7
      [⟨300, 0⟩, ⟨150, 160⟩, ⟨1, 0⟩] := by
  have descending : StrictlyDescending [⟨300, 0⟩, ⟨150, 160⟩, ⟨1, 0⟩] := by
    unfold StrictlyDescending
    decide
  apply (insertsRecord_iff oneBoard_encode (List.nodup_singleton _) (by decide) descending
    (by decide)).mpr
  exact Or.inr (Or.inl ⟨⟨300, 0⟩, rfl, by decide⟩)

/-- A mark of the expiry time is not expired, but it is not written either: what is in front
of the other board's record are the bytes of that record. -/
theorem insertsRecord_at_expiry :
    unexpired { expireTime := 100 } [⟨100, 0⟩] = [⟨100, 0⟩] ∧
    (brcInsertRecord { expireTime := 100 } 7 [⟨100, 0⟩] oneBoard).content =
      (truncated 5 200).bytes ++ (truncated 5 200).bytes ∧
    ¬ InsertsRecord { expireTime := 100 } oneBoard [truncated 5 200] 7 [⟨100, 0⟩] := by
  refine ⟨by decide, by decide +kernel, ?_⟩
  apply not_stored_of_others oneBoard_encode (List.nodup_singleton _) (List.pairwise_singleton _ _)
    (by decide) (by decide) (by decide) (by decide)
  decide

end Pttbbs.Mbbsd.ReadMarks
