/-
Loading the list of banned addresses.

Lines of addresses and blocks of text take turns in the file.  A block belongs to the ranges of the
lines of addresses before it, and is collected in a buffer that holds a screen of it.
-/

import Pttbbs.Common.BanList
import Pttbbs.Lib.Fgets

namespace Pttbbs.Common.BanIp

open Pttbbs.Lib Pttbbs.Lib.Comparison

/-! ### Lines -/

def pathlen : Nat := 256

/-- The size of `msg`, of 25 times `ANSILINELEN`. -/
def msgSize : Nat := 25 * 511

def sharp : UInt8 := 35

def strlcat (size : Nat) (dst src : CStr) : CStr :=
  ⟨(dst.bytes ++ src.bytes).take (size - 1), fun member => by
    rcases List.mem_append.mp (List.mem_of_mem_take member) with left | right
    · exact dst.plain left
    · exact src.plain right⟩

def buf (piece : Bytes) : CStr := strlcat pathlen (stringOf piece) ⟨[13], by simp⟩

def isDelimiter (byte : UInt8) : Bool := byte = 32 || byte = 9 || byte = 13 || byte = 10

def strtok (text : Bytes) : List CStr :=
  ((text.splitOnP isDelimiter).filter (· ≠ [])).map stringOf

inductive LineKind where
  | comment
  | address (ranges : List (UInt32 × UInt32))
  | blank
  | text
deriving DecidableEq

def lineKind (piece : Bytes) : LineKind :=
  let p := (buf piece).bytes.dropWhile isSpace
  if p.head? = some sharp then .comment
  else
    let tokens := strtok (front sharp p)
    if tokens ≠ [] ∧ ∀ token ∈ tokens, (parseIpOrRange token).isSome then
      .address (tokens.filterMap parseIpOrRange)
    else if p = [] then .blank
    else .text

/-! ### `load_banip_list` -/

structure Loading where
  list : IPv4List := {}
  msg : CStr := ⟨[], CStr.nil_ok⟩
  wasIp : Bool := true

def addRanges (list : IPv4List) (ranges : List (UInt32 × UInt32)) : IPv4List :=
  ranges.foldl (fun list range => addBanipListRange list range.1 range.2) list

def readLine (state : Loading) (piece : Bytes) : Option Loading :=
  match lineKind piece with
  | .comment => some state
  | .address ranges =>
      if state.wasIp then some { state with list := addRanges state.list ranges }
      else
        (addBanipListMessage state.list state.msg.bytes).map fun list =>
          { list := addRanges list ranges, msg := ⟨[], CStr.nil_ok⟩, wasIp := true }
  | .blank =>
      if state.list.ar.length < 1 ∨ state.wasIp then some state
      else some { state with msg := strlcat msgSize state.msg (buf piece) }
  | .text =>
      if state.list.ar.length < 1 then some state
      else if state.wasIp then some { state with msg := buf piece, wasIp := false }
      else some { state with msg := strlcat msgSize state.msg (buf piece) }

def readLines (state : Loading) : List Bytes → Option IPv4List
  | [] =>
      if state.wasIp then some state.list else addBanipListMessage state.list state.msg.bytes
  | piece :: rest => (readLine state piece).bind fun next => readLines next rest

def LoadBanipList (file : Bytes) (result : IPv4List) : Prop :=
  ∃ list, readLines {} (fgetsPieces pathlen [] file) = some list ∧ SortBanipList list result

/-! ### What a file says -/

/-- Every line, without its line feed, is shorter than `PATHLEN - 1`. -/
def ShortLines (file : Bytes) : Prop :=
  ∀ line ∈ fileLines [] file, (line.filter (· ≠ newline)).length < pathlen - 1

def LineKind.isAddress : LineKind → Bool
  | .address _ => true
  | _ => false

def LineKind.isComment : LineKind → Bool
  | .comment => true
  | _ => false

def LineKind.isBlank : LineKind → Bool
  | .blank => true
  | _ => false

/-- The block of text behind a line of addresses: blank lines and further addresses are skipped,
and it ends at the next addresses. -/
def blockBehind (after : List Bytes) : Bytes :=
  let lines := after.filter fun line => !(lineKind line).isComment
  let behind := lines.dropWhile fun line => (lineKind line).isAddress || (lineKind line).isBlank
  (behind.takeWhile fun line => !(lineKind line).isAddress).flatMap fun line => (buf line).bytes

def toldOfBlock (block : Bytes) : Bytes :=
  if block = [] then strBanned else keptText block ++ [10, 13]

/-- A range among lines, and what its addresses are told when blocks are cut by a rule. -/
def LinesGive (cut : Bytes → Bytes) (lines : List Bytes) (startIp endIp : UInt32)
    (text : Bytes) : Prop :=
  ∃ before line after ranges, lines = before ++ line :: after ∧
    lineKind line = .address ranges ∧ (startIp, endIp) ∈ ranges ∧
      text = toldOfBlock (cut (blockBehind after))

/-! ### The entries of a file -/

inductive Phase where
  | start
  | addresses
  | text (msg : CStr)

def Loading.phase (state : Loading) : Phase :=
  if state.wasIp then if state.list.ar.length < 1 then .start else .addresses
  else .text state.msg

def Phase.closed : Phase → List Entry
  | .text msg => [.message msg]
  | _ => []

def Phase.next (phase : Phase) (piece : Bytes) : Phase :=
  match lineKind piece with
  | .comment => phase
  | .address _ => .addresses
  | .blank =>
      match phase with
      | .text msg => .text (strlcat msgSize msg (buf piece))
      | other => other
  | .text =>
      match phase with
      | .start => .start
      | .addresses => .text (buf piece)
      | .text msg => .text (strlcat msgSize msg (buf piece))

def Phase.adds (phase : Phase) (piece : Bytes) : List Entry :=
  match lineKind piece with
  | .address ranges => phase.closed ++ ranges.map fun range => .range range.1 range.2
  | _ => []

def entriesFrom (phase : Phase) : List Bytes → List Entry
  | [] => phase.closed
  | piece :: rest => phase.adds piece ++ entriesFrom (phase.next piece) rest

theorem addEntries_append (list : IPv4List) (front back : List Entry) :
    addEntries list (front ++ back) =
      (addEntries list front).bind fun next => addEntries next back := by
  induction front generalizing list with
  | nil => rfl
  | cons entry rest ih =>
      cases entry with
      | range startIp endIp => exact ih _
      | message msg =>
          rw [List.cons_append, addEntries, addEntries, Option.bind_assoc]
          exact congrArg _ (funext ih)

theorem addEntries_ranges (list : IPv4List) (ranges : List (UInt32 × UInt32)) :
    addEntries list (ranges.map fun range => .range range.1 range.2) =
      some (addRanges list ranges) := by
  induction ranges generalizing list with
  | nil => rfl
  | cons range rest ih => exact ih _

theorem addRanges_some {list : IPv4List} {ranges : List (UInt32 × UInt32)}
    (some : list.ar ≠ [] ∨ ranges ≠ []) : (addRanges list ranges).ar ≠ [] := by
  induction ranges generalizing list with
  | nil => exact some.resolve_right fun impossible => impossible rfl
  | cons range rest ih => exact ih (.inl (by simp [addBanipListRange]))

theorem ranges_some {piece : Bytes} {ranges : List (UInt32 × UInt32)}
    (kind : lineKind piece = .address ranges) : ranges ≠ [] := by
  unfold lineKind at kind
  dsimp only at kind
  split_ifs at kind with comment every blank
  obtain ⟨some, parse⟩ := every
  obtain ⟨token, rest, tokens⟩ := List.exists_cons_of_ne_nil some
  obtain ⟨range, first⟩ := Option.isSome_iff_exists.mp
    (parse token (tokens ▸ List.mem_cons_self))
  injection kind with same
  rw [← same, tokens, List.filterMap_cons, first]
  exact List.cons_ne_nil _ _

def Loading.Sound (state : Loading) : Prop := state.wasIp = false → state.list.ar ≠ []

theorem Loading.phase_text {state : Loading} (inText : state.wasIp = false) :
    state.phase = .text state.msg := by
  rw [phase, inText]
  rfl

theorem Loading.phase_addresses {state : Loading} (inAddresses : state.wasIp = true)
    (some : state.list.ar ≠ []) : state.phase = .addresses := by
  have positive := List.length_pos_iff.mpr some
  rw [phase, if_pos inAddresses, if_neg (by omega)]

theorem Loading.phase_start {state : Loading} (inAddresses : state.wasIp = true)
    (empty : state.list.ar = []) : state.phase = .start := by
  rw [phase, if_pos inAddresses, empty]
  rfl

theorem Loading.Sound.cases {state : Loading} (sound : state.Sound) :
    (state.wasIp = true ∧ state.list.ar = [] ∧ state.phase = .start) ∨
      (state.wasIp = true ∧ state.list.ar ≠ [] ∧ state.phase = .addresses) ∨
      (state.wasIp = false ∧ state.list.ar ≠ [] ∧ state.phase = .text state.msg) := by
  cases inAddresses : state.wasIp with
  | false => exact .inr (.inr ⟨rfl, sound inAddresses, phase_text inAddresses⟩)
  | true =>
      by_cases empty : state.list.ar = []
      · exact .inl ⟨rfl, empty, phase_start inAddresses empty⟩
      · exact .inr (.inl ⟨rfl, empty, phase_addresses inAddresses empty⟩)

structure Moves (state : Loading) (piece : Bytes) (next : Loading) : Prop where
  read : readLine state piece = some next
  sound : next.Sound
  phase : next.phase = state.phase.next piece
  added : addEntries state.list (state.phase.adds piece) = some next.list

theorem readLine_moves {state : Loading} (sound : state.Sound) (piece : Bytes) :
    (readLine state piece = none ∧ addEntries state.list (state.phase.adds piece) = none) ∨
      ∃ next, Moves state piece next := by
  have stays : ∀ kind, lineKind piece = kind → kind.isAddress = false →
      addEntries state.list (state.phase.adds piece) = some state.list := by
    intro kind same other
    unfold Phase.adds
    rw [same]
    cases kind <;> first | rfl | cases other
  have positive : state.list.ar ≠ [] → ¬ state.list.ar.length < 1 := by
    intro some
    have := List.length_pos_iff.mpr some
    omega
  cases kind : lineKind piece with
  | comment =>
      refine .inr ⟨state, ?_, sound, ?_, stays _ kind rfl⟩
      · rw [readLine, kind]
      · unfold Phase.next
        rw [kind]
  | blank =>
      rcases sound.cases with ⟨was, empty, phase⟩ | ⟨was, some, phase⟩ | ⟨was, some, phase⟩
      · refine .inr ⟨state, ?_, sound, ?_, stays _ kind rfl⟩
        · rw [readLine, kind]
          exact if_pos (.inr was)
        · unfold Phase.next
          rw [kind, phase]
      · refine .inr ⟨state, ?_, sound, ?_, stays _ kind rfl⟩
        · rw [readLine, kind]
          exact if_pos (.inr was)
        · unfold Phase.next
          rw [kind, phase]
      · refine .inr ⟨{ state with msg := strlcat msgSize state.msg (buf piece) }, ?_, sound, ?_,
          stays _ kind rfl⟩
        · rw [readLine, kind]
          exact if_neg (not_or.mpr ⟨positive some, by rw [was]; exact Bool.false_ne_true⟩)
        · unfold Phase.next
          rw [kind, phase]
          exact Loading.phase_text was
  | text =>
      rcases sound.cases with ⟨was, empty, phase⟩ | ⟨was, some, phase⟩ | ⟨was, some, phase⟩
      · refine .inr ⟨state, ?_, sound, ?_, stays _ kind rfl⟩
        · rw [readLine, kind, empty]
          rfl
        · unfold Phase.next
          rw [kind, phase]
      · refine .inr ⟨{ state with msg := buf piece, wasIp := false }, ?_, fun _ => some, ?_,
          stays _ kind rfl⟩
        · rw [readLine, kind]
          dsimp only
          rw [if_neg (positive some), if_pos was]
        · unfold Phase.next
          rw [kind, phase]
          exact Loading.phase_text rfl
      · refine .inr ⟨{ state with msg := strlcat msgSize state.msg (buf piece) }, ?_, sound, ?_,
          stays _ kind rfl⟩
        · rw [readLine, kind]
          dsimp only
          rw [if_neg (positive some), if_neg (by rw [was]; exact Bool.false_ne_true)]
        · unfold Phase.next
          rw [kind, phase]
          exact Loading.phase_text was
  | address ranges =>
      have nonempty := ranges_some kind
      have adds : state.phase.adds piece =
          state.phase.closed ++ ranges.map fun range => .range range.1 range.2 := by
        rw [Phase.adds, kind]
      have next : state.phase.next piece = .addresses := by
        unfold Phase.next
        rw [kind]
      cases was : state.wasIp with
      | true =>
          have closed : state.phase.closed = [] := by
            rcases sound.cases with ⟨_, _, phase⟩ | ⟨_, _, phase⟩ | ⟨not, _, _⟩
            · rw [phase]
              rfl
            · rw [phase]
              rfl
            · exact absurd (was.symm.trans not) (by decide)
          refine .inr ⟨{ state with list := addRanges state.list ranges }, ?_, ?_, ?_, ?_⟩
          · rw [readLine, kind]
            exact if_pos was
          · exact fun _ => addRanges_some (.inr nonempty)
          · rw [next]
            exact Loading.phase_addresses was (addRanges_some (.inr nonempty))
          · rw [adds, closed, List.nil_append, addEntries_ranges]
      | false =>
          have closed : state.phase.closed = [.message state.msg] := by
            rw [Loading.phase_text was]
            rfl
          cases stored : addBanipListMessage state.list state.msg.bytes with
          | none =>
              refine .inl ⟨?_, ?_⟩
              · rw [readLine, kind]
                dsimp only
                rw [was, if_neg Bool.false_ne_true, stored]
                rfl
              · rw [adds, closed, addEntries_append, addEntries, stored]
                rfl
          | some list =>
              refine .inr ⟨{ list := addRanges list ranges }, ?_, ?_, ?_, ?_⟩
              · rw [readLine, kind]
                dsimp only
                rw [was, if_neg Bool.false_ne_true, stored]
                rfl
              · exact fun _ => addRanges_some (.inr nonempty)
              · rw [next]
                exact Loading.phase_addresses rfl (addRanges_some (.inr nonempty))
              · rw [adds, closed, addEntries_append, addEntries, stored]
                exact addEntries_ranges list ranges

theorem readLines_eq {state : Loading} (sound : state.Sound) (lines : List Bytes) :
    readLines state lines = addEntries state.list (entriesFrom state.phase lines) := by
  induction lines generalizing state with
  | nil =>
      rw [readLines, entriesFrom]
      rcases sound.cases with ⟨was, _, phase⟩ | ⟨was, _, phase⟩ | ⟨was, _, phase⟩
      · rw [if_pos was, phase]
        rfl
      · rw [if_pos was, phase]
        rfl
      · rw [was, if_neg Bool.false_ne_true, phase, Phase.closed, addEntries]
        cases addBanipListMessage state.list state.msg.bytes <;> rfl
  | cons piece rest ih =>
      rw [readLines, entriesFrom, addEntries_append]
      rcases readLine_moves sound piece with ⟨fails, also⟩ | ⟨next, moves⟩
      · rw [fails, also]
        rfl
      · rw [moves.read, moves.added, Option.bind_some, Option.bind_some, ih moves.sound,
          moves.phase]

end Pttbbs.Common.BanIp
