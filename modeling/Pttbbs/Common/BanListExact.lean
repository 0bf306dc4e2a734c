/-
What a loaded list of banned addresses answers.

The loop over the lines adds the entries of the file, and the entries give every range the block of
text behind it.  A blank message, messages beyond 32 bits and blocks of more than a screen are the
limits of this.
-/

import Pttbbs.Common.BanListFile

namespace Pttbbs.Common.BanIp

open Pttbbs.Lib Pttbbs.Lib.Comparison

/-! ### What the entries give -/

theorem nextMessage_ranges (ranges : List (UInt32 × UInt32)) (rest : List Entry) :
    nextMessage ((ranges.map fun range => .range range.1 range.2) ++ rest) = nextMessage rest := by
  induction ranges with
  | nil => rfl
  | cons range ranges ih => exact ih

theorem Phase.next_of_kind {phase : Phase} {piece : Bytes} {ranges : List (UInt32 × UInt32)}
    (kind : lineKind piece = .address ranges) : phase.next piece = .addresses := by
  unfold next
  rw [kind]

theorem Phase.adds_of_kind {phase : Phase} {piece : Bytes} {ranges : List (UInt32 × UInt32)}
    (kind : lineKind piece = .address ranges) :
    phase.adds piece = phase.closed ++ ranges.map fun range => .range range.1 range.2 := by
  unfold adds
  rw [kind]

theorem Phase.adds_of_other {phase : Phase} {piece : Bytes}
    (other : (lineKind piece).isAddress = false) : phase.adds piece = [] := by
  unfold adds
  cases kind : lineKind piece with
  | address ranges =>
      rw [kind] at other
      cases other
  | _ => rfl

def restOfBlock (after : List Bytes) : Bytes :=
  ((after.filter fun line => !(lineKind line).isComment).takeWhile
    fun line => !(lineKind line).isAddress).flatMap fun line => (buf line).bytes

theorem strlcat_bytes (size : Nat) (dst src : CStr) :
    (strlcat size dst src).bytes = (dst.bytes ++ src.bytes).take (size - 1) := rfl

theorem take_cut_append (size : Nat) (left right : Bytes) :
    (left.take size ++ right).take size = (left ++ right).take size := by
  have room : size - min size left.length = size - left.length := by omega
  rw [List.take_append, List.take_append, List.take_take, Nat.min_self, List.length_take, room]

theorem nextMessage_text {msg : CStr} (fits : msg.bytes.length ≤ msgSize - 1)
    (after : List Bytes) :
    ∃ whole, nextMessage (entriesFrom (.text msg) after) = some whole ∧
      whole.bytes = (msg.bytes ++ restOfBlock after).take (msgSize - 1) := by
  induction after generalizing msg with
  | nil => exact ⟨msg, rfl, by rw [restOfBlock]; simp [List.take_of_length_le fits]⟩
  | cons piece rest ih =>
      have grown : (lineKind piece).isAddress = false → (lineKind piece).isComment = false →
          Phase.next (.text msg) piece = .text (strlcat msgSize msg (buf piece)) →
          ∃ whole, nextMessage (entriesFrom (.text msg) (piece :: rest)) = some whole ∧
            whole.bytes = (msg.bytes ++ restOfBlock (piece :: rest)).take (msgSize - 1) := by
        intro notAddress notComment next
        have cut : (strlcat msgSize msg (buf piece)).bytes.length ≤ msgSize - 1 := by
          rw [strlcat_bytes, List.length_take]
          exact Nat.min_le_left _ _
        obtain ⟨whole, found, bytes⟩ := ih cut
        have split : restOfBlock (piece :: rest) = (buf piece).bytes ++ restOfBlock rest := by
          unfold restOfBlock
          rw [List.filter_cons_of_pos (by rw [notComment]; rfl),
            List.takeWhile_cons_of_pos (by rw [notAddress]; rfl), List.flatMap_cons]
        refine ⟨whole, ?_, ?_⟩
        · rw [entriesFrom, Phase.adds_of_other notAddress, next]
          exact found
        · rw [bytes, split, strlcat_bytes, take_cut_append, List.append_assoc]
      cases kind : lineKind piece with
      | comment =>
          obtain ⟨whole, found, bytes⟩ := ih fits
          have skipped : restOfBlock (piece :: rest) = restOfBlock rest := by
            unfold restOfBlock
            rw [List.filter_cons_of_neg (by rw [kind]; decide)]
          have next : Phase.next (.text msg) piece = .text msg := by
            unfold Phase.next
            rw [kind]
          refine ⟨whole, ?_, by rw [skipped, bytes]⟩
          rw [entriesFrom, Phase.adds_of_other (by rw [kind]; rfl), next]
          exact found
      | address ranges =>
          have ended : restOfBlock (piece :: rest) = [] := by
            unfold restOfBlock
            rw [List.filter_cons_of_pos (by rw [kind]; rfl),
              List.takeWhile_cons_of_neg (by rw [kind]; exact Bool.false_ne_true), List.flatMap_nil]
          refine ⟨msg, ?_, ?_⟩
          · rw [entriesFrom, Phase.adds_of_kind kind]
            rfl
          · rw [ended, List.append_nil, List.take_of_length_le fits]
      | blank =>
          refine grown (by rw [kind]; rfl) (by rw [kind]; rfl) ?_
          unfold Phase.next
          rw [kind]
      | text =>
          refine grown (by rw [kind]; rfl) (by rw [kind]; rfl) ?_
          unfold Phase.next
          rw [kind]

theorem buf_length (piece : Bytes) : (buf piece).bytes.length ≤ piece.length + 1 ∧
    (buf piece).bytes.length ≤ pathlen - 1 := by
  have string : (stringOf piece).bytes.length ≤ piece.length :=
    (List.takeWhile_sublist _).length_le
  rw [buf, strlcat_bytes, List.length_take, List.length_append, List.length_singleton]
  omega

theorem nonblank_of_text {piece : Bytes} (kind : lineKind piece = .text) :
    ∃ byte ∈ (buf piece).bytes, isSpace byte = false := by
  by_contra blank
  push Not at blank
  have all : (buf piece).bytes.dropWhile isSpace = [] :=
    List.dropWhile_eq_nil_iff.mpr fun byte member => Bool.not_eq_false _ ▸ blank byte member
  unfold lineKind at kind
  rw [all] at kind
  dsimp only at kind
  split_ifs at kind with _ _ empty
  exact empty rfl

theorem toldOf_addresses (after : List Bytes) :
    toldOf (nextMessage (entriesFrom .addresses after)) =
      toldOfBlock ((blockBehind after).take (msgSize - 1)) := by
  induction after with
  | nil => rfl
  | cons piece rest ih =>
      cases kind : lineKind piece with
      | comment =>
          have skipped : blockBehind (piece :: rest) = blockBehind rest := by
            unfold blockBehind
            dsimp only
            rw [List.filter_cons_of_neg (by rw [kind]; decide)]
          have next : Phase.addresses.next piece = .addresses := by
            unfold Phase.next
            rw [kind]
          rw [skipped, ← ih, entriesFrom, Phase.adds_of_other (by rw [kind]; rfl), next]
          rfl
      | blank =>
          have skipped : blockBehind (piece :: rest) = blockBehind rest := by
            unfold blockBehind
            dsimp only
            rw [List.filter_cons_of_pos (by rw [kind]; rfl),
              List.dropWhile_cons_of_pos (by rw [kind]; rfl)]
          have next : Phase.addresses.next piece = .addresses := by
            unfold Phase.next
            rw [kind]
          rw [skipped, ← ih, entriesFrom, Phase.adds_of_other (by rw [kind]; rfl), next]
          rfl
      | address ranges =>
          have skipped : blockBehind (piece :: rest) = blockBehind rest := by
            unfold blockBehind
            dsimp only
            rw [List.filter_cons_of_pos (by rw [kind]; rfl),
              List.dropWhile_cons_of_pos (by rw [kind]; rfl)]
          rw [skipped, ← ih, entriesFrom, Phase.adds_of_kind kind, Phase.next_of_kind kind,
            List.append_assoc]
          exact congrArg toldOf (nextMessage_ranges ranges _)
      | text =>
          have started : blockBehind (piece :: rest) = (buf piece).bytes ++ restOfBlock rest := by
            unfold blockBehind restOfBlock
            dsimp only
            rw [List.filter_cons_of_pos (by rw [kind]; rfl),
              List.dropWhile_cons_of_neg (by rw [kind]; decide),
              List.takeWhile_cons_of_pos (by rw [kind]; rfl), List.flatMap_cons]
          have next : Phase.addresses.next piece = .text (buf piece) := by
            unfold Phase.next
            rw [kind]
          have fits : (buf piece).bytes.length ≤ msgSize - 1 :=
            (buf_length piece).2.trans (by decide)
          obtain ⟨whole, found, bytes⟩ := nextMessage_text fits rest
          obtain ⟨byte, member, _⟩ := nonblank_of_text kind
          have some : whole.bytes ≠ [] := by
            intro empty
            rw [empty, List.take_append, List.take_of_length_le fits] at bytes
            exact absurd (List.append_eq_nil_iff.mp bytes.symm).1 (List.ne_nil_of_mem member)
          rw [started, ← bytes, toldOfBlock, if_neg some, entriesFrom,
            Phase.adds_of_other (by rw [kind]; rfl), next, List.nil_append, found]
          rfl

theorem given_ranges {ranges : List (UInt32 × UInt32)} {rest : List Entry}
    {startIp endIp : UInt32} {text : Bytes} :
    Given ((ranges.map fun range => .range range.1 range.2) ++ rest) startIp endIp text ↔
      ((startIp, endIp) ∈ ranges ∧ toldOf (nextMessage rest) = text) ∨
        Given rest startIp endIp text := by
  induction ranges with
  | nil => simp
  | cons range ranges ih =>
      rw [List.map_cons, List.cons_append, List.mem_cons]
      constructor
      · rintro ⟨before, after, split, told⟩
        cases before with
        | nil =>
            injection split with first later
            injection first with starts ends
            refine .inl ⟨.inl (by rw [← starts, ← ends]), ?_⟩
            rw [← told, ← later, nextMessage_ranges]
        | cons entry before =>
            injection split with _ split
            rcases ih.mp ⟨before, after, split, told⟩ with ⟨member, told⟩ | given
            · exact .inl ⟨.inr member, told⟩
            · exact .inr given
      · have later : Given ((ranges.map fun range => .range range.1 range.2) ++ rest)
            startIp endIp text →
            Given (.range range.1 range.2 ::
              ((ranges.map fun range => .range range.1 range.2) ++ rest)) startIp endIp text := by
          rintro ⟨before, after, split, told⟩
          exact ⟨.range range.1 range.2 :: before, after, by rw [split, List.cons_append], told⟩
        rintro (⟨rfl | member, told⟩ | given)
        · exact ⟨[], _, rfl, by rw [nextMessage_ranges]; exact told⟩
        · exact later (ih.mpr (.inl ⟨member, told⟩))
        · exact later (ih.mpr (.inr given))

theorem given_closed {phase : Phase} {rest : List Entry} {startIp endIp : UInt32} {text : Bytes} :
    Given (phase.closed ++ rest) startIp endIp text ↔ Given rest startIp endIp text := by
  cases phase with
  | start => exact Iff.rfl
  | addresses => exact Iff.rfl
  | text msg =>
      constructor
      · rintro ⟨before, after, split, told⟩
        cases before with
        | nil =>
            injection split with impossible _
            cases impossible
        | cons entry before =>
            injection split with _ split
            exact ⟨before, after, split, told⟩
      · rintro ⟨before, after, rfl, told⟩
        exact ⟨.message msg :: before, after, rfl, told⟩

theorem linesGive_cons {cut : Bytes → Bytes} {piece : Bytes} {rest : List Bytes}
    {startIp endIp : UInt32} {text : Bytes} :
    LinesGive cut (piece :: rest) startIp endIp text ↔
      (∃ ranges, lineKind piece = .address ranges ∧ (startIp, endIp) ∈ ranges ∧
        text = toldOfBlock (cut (blockBehind rest))) ∨
      LinesGive cut rest startIp endIp text := by
  constructor
  · rintro ⟨before, line, after, ranges, split, kind, member, told⟩
    cases before with
    | nil =>
        injection split with first later
        subst first later
        exact .inl ⟨ranges, kind, member, told⟩
    | cons other before =>
        injection split with _ split
        exact .inr ⟨before, line, after, ranges, split, kind, member, told⟩
  · rintro (⟨ranges, kind, member, told⟩ | ⟨before, line, after, ranges, rfl, kind, member, told⟩)
    · exact ⟨[], piece, rest, ranges, rfl, kind, member, told⟩
    · exact ⟨piece :: before, line, after, ranges, rfl, kind, member, told⟩

theorem given_entriesFrom (phase : Phase) (lines : List Bytes) (startIp endIp : UInt32)
    (text : Bytes) :
    Given (entriesFrom phase lines) startIp endIp text ↔
      LinesGive (List.take (msgSize - 1)) lines startIp endIp text := by
  induction lines generalizing phase with
  | nil =>
      rw [entriesFrom, ← List.append_nil phase.closed, given_closed]
      constructor
      · rintro ⟨before, after, split, _⟩
        cases before <;> cases split
      · rintro ⟨before, line, after, ranges, split, _⟩
        cases before <;> cases split
  | cons piece rest ih =>
      rw [entriesFrom, linesGive_cons]
      cases kind : (lineKind piece).isAddress with
      | false =>
          rw [Phase.adds_of_other kind, List.nil_append, ih]
          refine (or_iff_right ?_).symm
          rintro ⟨ranges, same, _⟩
          rw [same] at kind
          cases kind
      | true =>
          cases same : lineKind piece with
          | address ranges =>
              rw [Phase.adds_of_kind same, Phase.next_of_kind same, List.append_assoc,
                given_closed, given_ranges, ih, toldOf_addresses]
              refine or_congr_left ⟨fun given => ⟨ranges, rfl, given.1, given.2.symm⟩, ?_⟩
              rintro ⟨others, equal, member, told⟩
              injection equal with equal
              exact ⟨equal ▸ member, told.symm⟩
          | _ =>
              rw [same] at kind
              cases kind

/-! ### Every file can be stored -/

def Phase.Good : Phase → Prop
  | .text msg => msg.bytes.length ≤ msgSize - 1 ∧ ∃ byte ∈ msg.bytes, isSpace byte = false
  | _ => True

theorem keptText_ne_nil {msg : Bytes} (nonblank : ∃ byte ∈ msg, isSpace byte = false) :
    keptText msg ≠ [] := by
  intro empty
  obtain ⟨byte, member, other⟩ := nonblank
  have space := List.rdropWhile_eq_nil_iff.mp empty byte member
  rw [other] at space
  cases space

theorem Phase.Good.next {phase : Phase} (good : phase.Good) (piece : Bytes) :
    (phase.next piece).Good := by
  have grown : ∀ msg : CStr, Phase.Good (.text msg) →
      Phase.Good (.text (strlcat msgSize msg (buf piece))) := by
    rintro msg ⟨fits, byte, member, nonblank⟩
    refine ⟨?_, byte, ?_, nonblank⟩
    · rw [strlcat_bytes, List.length_take]
      exact Nat.min_le_left _ _
    · rw [strlcat_bytes, List.take_append, List.take_of_length_le fits]
      exact List.mem_append_left _ member
  unfold Phase.next
  cases kind : lineKind piece with
  | comment => exact good
  | address ranges => trivial
  | blank =>
      cases phase with
      | text msg => exact grown msg good
      | _ => trivial
  | text =>
      cases phase with
      | start => trivial
      | addresses => exact ⟨(buf_length piece).2.trans (by decide), nonblank_of_text kind⟩
      | text msg => exact grown msg good

theorem Phase.Good.closed {phase : Phase} (good : phase.Good) {msg : CStr}
    (member : .message msg ∈ phase.closed) :
    msg.bytes.length < 2 ^ 31 ∧ keptText msg.bytes ≠ [] := by
  cases phase with
  | text other =>
      obtain rfl : msg = other := by
        have same := List.mem_singleton.mp member
        injection same
      have size : msgSize - 1 < 2 ^ 31 := by decide
      exact ⟨good.1.trans_lt size, keptText_ne_nil good.2⟩
  | _ => cases member

theorem entriesFrom_each {phase : Phase} (good : phase.Good) {lines : List Bytes} {msg : CStr}
    (member : .message msg ∈ entriesFrom phase lines) :
    msg.bytes.length < 2 ^ 31 ∧ keptText msg.bytes ≠ [] := by
  induction lines generalizing phase with
  | nil => exact good.closed member
  | cons piece rest ih =>
      rcases List.mem_append.mp member with here | later
      · unfold Phase.adds at here
        cases kind : lineKind piece with
        | address ranges =>
            rw [kind] at here
            rcases List.mem_append.mp here with closed | range
            · exact good.closed closed
            · obtain ⟨range, _, impossible⟩ := List.mem_map.mp range
              cases impossible
        | _ =>
            rw [kind] at here
            cases here
      · exact ih (good.next piece) later

def Phase.credit : Phase → Nat
  | .start => 0
  | .addresses => 3
  | .text msg => msg.bytes.length + 3

theorem Phase.closed_credit (phase : Phase) : (storedText phase.closed).length ≤ phase.credit := by
  cases phase with
  | text msg =>
      have kept : (keptText msg.bytes).length ≤ msg.bytes.length :=
        (List.rdropWhile_prefix isSpace msg.bytes).length_le
      rw [closed, storedText_cons, Entry.stored, storedText, List.flatMap_nil, List.append_nil,
        List.length_append, credit]
      change _ + 3 ≤ _
      omega
  | _ => exact Nat.zero_le _

theorem storedText_append (front back : List Entry) :
    storedText (front ++ back) = storedText front ++ storedText back :=
  List.flatMap_append

theorem storedText_ranges (ranges : List (UInt32 × UInt32)) :
    storedText (ranges.map fun range => .range range.1 range.2) = [] := by
  rw [storedText, List.flatMap_map]
  exact List.flatMap_eq_nil_iff.mpr fun _ _ => rfl

theorem Phase.adds_credit (phase : Phase) {piece : Bytes} (some : piece ≠ []) :
    (storedText (phase.adds piece)).length + (phase.next piece).credit ≤
      phase.credit + 3 * piece.length := by
  have positive := List.length_pos_iff.mpr some
  have size := (buf_length piece).1
  have grown : ∀ msg : CStr, Phase.credit (.text (strlcat msgSize msg (buf piece))) ≤
      Phase.credit (.text msg) + 3 * piece.length := by
    intro msg
    rw [credit, credit, strlcat_bytes, List.length_take, List.length_append]
    omega
  unfold Phase.next Phase.adds
  cases kind : lineKind piece with
  | comment => exact (Nat.zero_add _).le.trans (Nat.le_add_right _ _)
  | address ranges =>
      have closed := phase.closed_credit
      dsimp only
      rw [storedText_append, storedText_ranges, List.append_nil]
      change _ + 3 ≤ _
      omega
  | blank =>
      cases phase with
      | text msg => exact (Nat.zero_add _).le.trans (grown msg)
      | _ => exact (Nat.zero_add _).le.trans (Nat.le_add_right _ _)
  | text =>
      cases phase with
      | start => exact (Nat.zero_add _).le.trans (Nat.le_add_right _ _)
      | addresses =>
          change 0 + ((buf piece).bytes.length + 3) ≤ 3 + 3 * piece.length
          omega
      | text msg => exact (Nat.zero_add _).le.trans (grown msg)

theorem storedText_entriesFrom (phase : Phase) {lines : List Bytes}
    (some : ∀ line ∈ lines, line ≠ []) :
    (storedText (entriesFrom phase lines)).length ≤ phase.credit + 3 * lines.flatten.length := by
  induction lines generalizing phase with
  | nil => exact phase.closed_credit
  | cons piece rest ih =>
      have step := phase.adds_credit (some piece List.mem_cons_self)
      have later := ih (phase.next piece) fun line member => some line (List.mem_cons_of_mem _ member)
      rw [entriesFrom, storedText_append, List.length_append, List.flatten_cons,
        List.length_append]
      omega

theorem storable_file {file : Bytes} (small : file.length < 2 ^ 30) :
    Storable (entriesFrom .start (fileLines [] file)) := by
  refine ⟨fun msg member => @entriesFrom_each .start trivial _ _ member, ?_⟩
  have bound := storedText_entriesFrom .start fun line => @fileLines_some [] file line
  rw [fileLines_flatten] at bound
  change _ ≤ 0 + 3 * file.length at bound
  omega

/-! ### What is loaded -/

theorem exists_sortBanipList (list : IPv4List) : ∃ result, SortBanipList list result := by
  refine ⟨_, list.ar.mergeSort fun a b => compareBanrecord a b ≤ 0, fun _ => ⟨?_, ?_⟩, rfl⟩
  · exact List.mergeSort_perm _ _
  · refine (List.pairwise_mergeSort ?_ ?_ list.ar).imp of_decide_eq_true
    · intro a b c first second
      rw [decide_eq_true_iff, (compareBanrecord_sign _ _).le_zero] at first second ⊢
      exact first.trans second
    · intro a b
      rw [Bool.or_eq_true, decide_eq_true_iff, decide_eq_true_iff,
        (compareBanrecord_sign _ _).le_zero, (compareBanrecord_sign _ _).le_zero]
      exact le_total _ _

theorem BansExactly.congr {list : IPv4List} {given other : UInt32 → UInt32 → Bytes → Prop}
    (bans : BansExactly list given)
    (same : ∀ startIp endIp text, given startIp endIp text ↔ other startIp endIp text) :
    BansExactly list other := by
  have equal : given = other := by
    funext startIp endIp text
    exact propext (same startIp endIp text)
  exact equal ▸ bans

theorem loadBanipList_bans {file : Bytes} (short : ShortLines file)
    (small : file.length < 2 ^ 30) :
    (∃ result, LoadBanipList file result) ∧ ∀ result, LoadBanipList file result →
      BansExactly result (LinesGive (List.take (msgSize - 1)) (fileLines [] file)) := by
  have storable := storable_file small
  have read : readLines {} (fgetsPieces pathlen [] file) =
      addEntries {} (entriesFrom .start (fileLines [] file)) := by
    rw [fgetsPieces_eq List.not_mem_nil short]
    exact readLines_eq (fun impossible => by cases impossible) _
  obtain ⟨list, added, _⟩ := addEntries_spec storable.each {}
  constructor
  · obtain ⟨result, sorted⟩ := exists_sortBanipList list
    exact ⟨result, list, read.trans added, sorted⟩
  · rintro result ⟨loaded, same, sorted⟩
    rw [read, added] at same
    obtain rfl := Option.some.inj same
    exact (bansExactly_of_covers storable added sorted).congr (given_entriesFrom .start _)

/-! ### Blocks that are cut -/

def longFile (lines : Nat) : Bytes :=
  utf8 "1.2.3.4\n" ++ (List.replicate lines [120, 10]).flatten

theorem fileLines_letters (lines : Nat) :
    fileLines [] (List.replicate lines [120, 10]).flatten = List.replicate lines [120, 10] := by
  induction lines with
  | zero => rfl
  | succ lines ih =>
      rw [List.replicate_succ, List.flatten_cons]
      exact congrArg _ ih

theorem fileLines_longFile (lines : Nat) :
    fileLines [] (longFile lines) = utf8 "1.2.3.4\n" :: List.replicate lines [120, 10] := by
  rw [← fileLines_letters lines]
  rfl

theorem lineKind_letter : lineKind [120, 10] = .text := by decide +kernel

theorem lineKind_address : lineKind (utf8 "1.2.3.4\n") = .address [(16909060, 16909060)] := by
  decide +kernel

theorem blockBehind_letters (lines : Nat) :
    blockBehind (List.replicate lines [120, 10]) =
      (List.replicate lines [120, 10, 13]).flatten := by
  have every : ∀ line ∈ List.replicate lines ([120, 10] : Bytes), lineKind line = .text := by
    intro line member
    rw [List.eq_of_mem_replicate member]
    exact lineKind_letter
  have text : (buf [120, 10]).bytes = [120, 10, 13] := by decide
  unfold blockBehind
  dsimp only
  rw [List.filter_eq_self.mpr fun line member => by rw [every line member]; rfl,
    List.dropWhile_eq_self_iff.mpr fun positive => ?_,
    List.takeWhile_eq_self_iff.mpr fun line member => by rw [every line member]; rfl,
    List.flatMap_def, List.map_replicate, text]
  rw [every _ (List.getElem_mem _)]
  decide

theorem keptText_letters (lines : Nat) :
    (keptText (List.replicate (lines + 1) [120, 10, 13]).flatten).length = 3 * lines + 1 := by
  have last : (List.replicate (lines + 1) ([120, 10, 13] : Bytes)).flatten =
      (List.replicate lines [120, 10, 13]).flatten ++ [120] ++ [10] ++ [13] := by
    rw [List.replicate_succ', List.flatten_append]
    simp
  rw [keptText, last, List.rdropWhile_concat_pos _ _ _ (by decide),
    List.rdropWhile_concat_pos _ _ _ (by decide), List.rdropWhile_concat_neg _ _ _ (by decide)]
  simp [List.length_flatten, List.map_replicate, List.sum_replicate_nat]
  omega

theorem length_of_letters {lines : Nat} {startIp endIp : UInt32} {text : Bytes}
    (given : LinesGive id (utf8 "1.2.3.4\n" :: List.replicate (lines + 1) [120, 10])
      startIp endIp text) : text.length = 3 * lines + 3 := by
  rcases linesGive_cons.mp given with ⟨_, _, _, rfl⟩ | ⟨before, line, after, ranges, split, kind, _⟩
  · have kept := keptText_letters lines
    rw [id, blockBehind_letters, toldOfBlock, if_neg (by simp [List.replicate_succ]),
      List.length_append, kept]
    rfl
  · have member : line ∈ List.replicate (lines + 1) ([120, 10] : Bytes) :=
      split ▸ List.mem_append_right before List.mem_cons_self
    rw [List.eq_of_mem_replicate member, lineKind_letter] at kind
    cases kind

theorem length_of_cut {lines : List Bytes} {startIp endIp : UInt32} {text : Bytes}
    (given : LinesGive (List.take (msgSize - 1)) lines startIp endIp text) :
    text.length ≤ msgSize + 29 := by
  obtain ⟨_, _, after, _, _, _, _, rfl⟩ := given
  rw [toldOfBlock]
  split
  · have size : strBanned.length = 29 := by decide
    omega
  · have kept := (List.rdropWhile_prefix isSpace ((blockBehind after).take (msgSize - 1))).length_le
    rw [List.length_take] at kept
    rw [keptText, List.length_append]
    change _ + 2 ≤ _
    omega

def letters (count : Nat) : CStr :=
  ⟨List.replicate (count + 1) 120, fun member => absurd (List.eq_of_mem_replicate member) (by decide)⟩

theorem keptText_letter (count : Nat) : keptText (letters count).bytes = (letters count).bytes := by
  change List.rdropWhile isSpace (List.replicate (count + 1) 120) = List.replicate (count + 1) 120
  rw [List.replicate_succ', List.rdropWhile_concat_neg _ _ _ (by decide)]

theorem storedText_two (count : Nat) :
    storedText [.message (letters count), .message (letters count)] =
      (letters count).bytes ++ [10, 13, 0] ++ ((letters count).bytes ++ [10, 13, 0]) := by
  rw [storedText_cons, storedText_cons, Entry.stored, keptText_letter, storedText,
    List.flatMap_nil, List.append_nil]

def lettersFirst (count : Nat) : List Entry :=
  [.message (letters count), .message (letters count), .range 1 1]

theorem lettersFirst_split {count : Nat} {before after : List Entry} {startIp endIp : UInt32}
    (split : lettersFirst count = before ++ .range startIp endIp :: after) :
    before = [.message (letters count), .message (letters count)] ∧ after = [] := by
  unfold lettersFirst at split
  rcases before with _ | ⟨first, _ | ⟨second, _ | ⟨third, before⟩⟩⟩
  · injection split with impossible _
    cases impossible
  · injection split with _ split
    injection split with impossible _
    cases impossible
  · injection split with same split
    injection split with also split
    injection split with _ split
    exact ⟨by rw [← same, ← also], split.symm⟩
  · injection split with _ split
    injection split with _ split
    injection split with _ split
    cases before <;> cases split

theorem storedText_lettersFirst (count : Nat) :
    ∃ rest, storedText (lettersFirst count) = 120 :: rest := by
  rw [lettersFirst, storedText_cons, Entry.stored, keptText_letter, letters]
  exact ⟨_, rfl⟩

theorem lettersFirst_wraps {count : Nat} (wraps : UInt32.ofNat (2 * count + 8) = 0)
    (short : count + 1 < 2 ^ 31) :
    (∀ msg, .message msg ∈ lettersFirst count →
      msg.bytes.length < 2 ^ 31 ∧ keptText msg.bytes ≠ []) ∧
    ∃ list, addEntries {} (lettersFirst count) = some list ∧
      ∀ result, SortBanipList list result → ¬ BansExactly result (Given (lettersFirst count)) := by
  have each : ∀ msg, .message msg ∈ lettersFirst count →
      msg.bytes.length < 2 ^ 31 ∧ keptText msg.bytes ≠ [] := by
    intro msg member
    obtain rfl : msg = letters count := by
      simpa [lettersFirst] using member
    rw [keptText_letter]
    exact ⟨List.length_replicate.trans_lt short, List.cons_ne_nil _ _⟩
  obtain ⟨list, added, text, records⟩ := addEntries_spec each {}
  refine ⟨each, list, added, fun result sorted bans => ?_⟩
  obtain ⟨same, ascends, covers⟩ := sorted.keeps
  obtain ⟨found, read, answers⟩ := searchBanrecord_answers ascends 1
  obtain ⟨answer, asked, banned, told⟩ := bans.answer 1
  rw [inBanipListAddr_eq, read] at asked
  obtain rfl := Option.some.inj asked
  have isSome := banned.mpr ⟨1, 1, strBanned,
    ⟨[.message (letters count), .message (letters count)], [], rfl, rfl⟩, by decide, by decide⟩
  rw [Option.isSome_map] at isSome
  obtain ⟨record, rfl⟩ := Option.isSome_iff_exists.mp isSome
  -- The record is that of the one range, and its place is that of the first message.
  obtain ⟨member, holds⟩ := answers.1 record rfl
  obtain ⟨_, member, _, place⟩ := (covers 1 record.msgOffset).mp ⟨record, member, holds, rfl⟩
  obtain ⟨before, after, split, offset⟩ := ((records _).mp member).resolve_left List.not_mem_nil
  obtain ⟨rfl, rfl⟩ := lettersFirst_split split
  obtain ⟨_, _, ⟨before, after, split, known⟩, _⟩ := told _ rfl
  obtain ⟨rfl, rfl⟩ := lettersFirst_split split
  have start : record.msgOffset = 0 := by
    have length : (storedText [.message (letters count), .message (letters count)]).length =
        2 * count + 8 := by
      rw [storedText_two]
      simp [letters]
      omega
    rw [← place, offset, ← wraps, ← length]
    rfl
  obtain ⟨rest, stored⟩ := storedText_lettersFirst count
  have letter : (textAt result.msg record.msgOffset).head? = some 120 := by
    rw [start, same, text, stored]
    change ((if 0 < rest.length + 1 then _ else strBanned : Bytes)).head? = some 120
    rw [if_pos (Nat.zero_lt_succ _)]
    rfl
  rw [show textAt result.msg record.msgOffset = strBanned from known.symm] at letter
  exact absurd letter (by decide)

/-- Lists that are built from ranges and messages, and lists that are loaded from files, ban
exactly what they are given. -/
theorem banList_exact :
    (∀ entries, Storable entries → ∃ list, addEntries {} entries = some list ∧
      ∀ result, SortBanipList list result → BansExactly result (Given entries)) ∧
    ∀ file, ShortLines file → file.length < 2 ^ 30 →
      (∃ result, LoadBanipList file result) ∧ ∀ result, LoadBanipList file result →
        BansExactly result (LinesGive (List.take (msgSize - 1)) (fileLines [] file)) := by
  refine ⟨fun entries storable => ?_, fun file => loadBanipList_bans⟩
  obtain ⟨list, added, _⟩ := addEntries_spec storable.each {}
  exact ⟨list, added, fun result => bansExactly_of_covers storable added⟩

theorem banList_exact_nested :
    ∃ list, addEntries {} [.range 1 9, .range 3 4, .message (letters 0)] = some list ∧
      ∀ result, SortBanipList list result →
        BansExactly result (Given [.range 1 9, .range 3 4, .message (letters 0)]) := by
  refine banList_exact.1 _ ⟨fun msg member => ?_, by decide⟩
  obtain rfl : msg = letters 0 := by
    simpa using member
  decide

/-- A blank message stops the program, messages that take 32 bits mislead a range, and a block of
more than a screen loses its end. -/
theorem not_banList_whole :
    addEntries {} [.range 1 2, .message ⟨[32], by decide⟩] = none ∧
    (∃ list, addEntries {} (lettersFirst (2 ^ 31 - 4)) = some list ∧
      ∀ result, SortBanipList list result →
        ¬ BansExactly result (Given (lettersFirst (2 ^ 31 - 4)))) ∧
    ¬ ∀ file, ShortLines file → file.length < 2 ^ 30 → ∀ result, LoadBanipList file result →
      BansExactly result (LinesGive id (fileLines [] file)) := by
  refine ⟨by decide, (lettersFirst_wraps (by decide) (by decide)).2, fun every => ?_⟩
  have lines := fileLines_longFile 5000
  have short : ShortLines (longFile 5000) := by
    intro line member
    rw [lines] at member
    rcases List.mem_cons.mp member with rfl | later
    · decide
    · rw [List.eq_of_mem_replicate later]
      decide
  have small : (longFile 5000).length < 2 ^ 30 := by
    rw [longFile, List.length_append, List.length_flatten, List.map_replicate, List.sum_replicate_nat]
    decide
  obtain ⟨⟨result, loaded⟩, bans⟩ := loadBanipList_bans short small
  obtain ⟨answer, asked, banned, cut⟩ := (bans result loaded).answer 16909060
  obtain ⟨answer', asked', _, whole⟩ := (every _ short small result loaded).answer 16909060
  obtain rfl := Option.some.inj (asked.symm.trans asked')
  rw [lines] at banned cut whole
  have isSome := banned.mpr ⟨16909060, 16909060, _, linesGive_cons.mpr
    (.inl ⟨_, lineKind_address, List.mem_cons_self, rfl⟩), by decide, by decide⟩
  obtain ⟨text, rfl⟩ := Option.isSome_iff_exists.mp isSome
  obtain ⟨_, _, given, _⟩ := cut text rfl
  obtain ⟨_, _, given', _⟩ := whole text rfl
  have long := length_of_letters given'
  have size := length_of_cut given
  rw [long] at size
  exact absurd size (by decide)

end Pttbbs.Common.BanIp
