/-
Reading a text as UTF-8 from left to right.

The reader holds the bytes of a sequence that is not complete.  It finds a character
exactly where a well-formed sequence ends, and it meets no error exactly when the text is
a row of well-formed sequences and the beginning of another one.
-/

import Pttbbs.Lib.Utf8Grammar
import Mathlib.Data.List.Induction

namespace Pttbbs.Lib

/-! ### What a text leaves open -/

theorem isOpen_concat {bytes : Bytes} {byte : UInt8} (some : bytes ≠ [])
    (awaits : isOpen (bytes ++ [byte]) = true) : isOpen bytes = true ∧ isTail byte = true := by
  cases bytes with
  | nil => contradiction
  | cons lead rest =>
      rw [List.cons_append, isOpen_cons, List.length_append] at awaits
      obtain ⟨range, tails, short⟩ := awaits
      refine ⟨(isOpen_cons _ _).mpr ⟨range, fun other member => ?_, by omega⟩, ?_⟩
      · exact tails other (List.mem_append_left _ member)
      · exact tails byte (List.mem_append_right _ List.mem_cons_self)

theorem wellFormed_concat {bytes : Bytes} {byte : UInt8} (some : bytes ≠ [])
    (formed : wellFormed (bytes ++ [byte]) = true) :
    isOpen bytes = true ∧ isTail byte = true := by
  match bytes, some, formed with
  | [a], _, formed =>
      simp only [List.cons_append, List.nil_append, wellFormed, Bool.and_eq_true, inRange_iff]
        at formed
      have two : sequenceLength a = 2 := sequenceLength_two (by omega) (by omega)
      refine ⟨(isOpen_cons _ _).mpr ⟨by omega, by simp, ?_⟩, formed.2⟩
      rw [two, List.length_nil]
      omega
  | [a, b], _, formed =>
      simp only [List.cons_append, List.nil_append, wellFormed, Bool.and_eq_true, Bool.or_eq_true,
        inRange_iff, isTail_iff] at formed
      have three : sequenceLength a = 3 := sequenceLength_three (by omega) (by omega)
      have bTail : isTail b = true := (isTail_iff b).mpr (by omega)
      refine ⟨(isOpen_cons _ _).mpr ⟨by omega, by simpa using bTail, ?_⟩,
        (isTail_iff byte).mpr formed.2⟩
      rw [three, List.length_singleton]
      omega
  | [a, b, c], _, formed =>
      simp only [List.cons_append, List.nil_append, wellFormed, Bool.and_eq_true, Bool.or_eq_true,
        inRange_iff, isTail_iff] at formed
      have four : sequenceLength a = 4 := sequenceLength_four (by omega)
      have bTail : isTail b = true := (isTail_iff b).mpr (by omega)
      have cTail : isTail c = true := (isTail_iff c).mpr (by omega)
      refine ⟨(isOpen_cons _ _).mpr ⟨by omega, by simp [bTail, cTail], ?_⟩,
        (isTail_iff byte).mpr formed.2⟩
      rw [four, List.length_cons, List.length_singleton]
      omega
  | a :: b :: c :: d :: rest, _, formed =>
      cases rest <;> simp [wellFormed] at formed

theorem not_isTail_of_isOpen {byte : UInt8} (awaits : isOpen [byte] = true) :
    isTail byte = false := by
  obtain ⟨lead, rest, joined, notTail, _⟩ := headed_of_isOpen awaits
  injection joined with same _
  rw [same]
  exact notTail

theorem not_isTail_of_wellFormed {byte : UInt8} (formed : wellFormed [byte] = true) :
    isTail byte = false := by
  obtain ⟨lead, rest, joined, notTail, _⟩ := headed_of_wellFormed formed
  injection joined with same _
  rw [same]
  exact notTail

theorem not_isOpen_of_wellFormed {bytes : Bytes} (formed : wellFormed bytes = true) :
    isOpen bytes = false := by
  rw [Bool.eq_false_iff]
  intro awaits
  match bytes, formed, awaits with
  | [a], formed, awaits =>
      rw [wellFormed, inRange_iff] at formed
      rw [isOpen_cons] at awaits
      omega
  | [a, b], formed, awaits =>
      rw [wellFormed, Bool.and_eq_true, inRange_iff] at formed
      rw [isOpen_cons, sequenceLength_two (by omega) (by omega)] at awaits
      exact absurd awaits.2.2 (by simp)
  | [a, b, c], formed, awaits =>
      simp only [wellFormed, Bool.and_eq_true, Bool.or_eq_true, inRange_iff] at formed
      rw [isOpen_cons, sequenceLength_three (by omega) (by omega)] at awaits
      exact absurd awaits.2.2 (by simp)
  | [a, b, c, d], _, awaits =>
      rw [isOpen_cons] at awaits
      have bound := sequenceLength_le a
      have short : 4 < sequenceLength a := awaits.2.2
      omega

def opened (text : Bytes) : Bytes := (text.tails.find? isOpen).getD []

theorem opened_of_suffix {bytes text : Bytes} (awaits : isOpen bytes = true)
    (ends : bytes <:+ text) : opened text = bytes := by
  unfold opened
  cases found : text.tails.find? isOpen with
  | none => exact absurd awaits (List.find?_eq_none.mp found bytes ((List.mem_tails _ _).mpr ends))
  | some other =>
      have otherEnds := (List.mem_tails _ _).mp (List.mem_of_find?_eq_some found)
      exact (headed_of_isOpen (List.find?_some found)).suffix_unique (headed_of_isOpen awaits)
        otherEnds ends

theorem opened_cases (text : Bytes) :
    opened text = [] ∨ isOpen (opened text) = true ∧ opened text <:+ text := by
  cases found : text.tails.find? isOpen with
  | none =>
      left
      rw [opened, found]
      rfl
  | some bytes =>
      right
      have value : opened text = bytes := by rw [opened, found]; rfl
      rw [value]
      exact ⟨List.find?_some found, (List.mem_tails _ _).mp (List.mem_of_find?_eq_some found)⟩

theorem opened_eq_nil {text : Bytes} (none : ∀ bytes, bytes <:+ text → isOpen bytes = false) :
    opened text = [] := by
  rcases opened_cases text with empty | ⟨awaits, ends⟩
  · exact empty
  · rw [none _ ends] at awaits
    cases awaits

theorem opened_suffix (text : Bytes) : opened text <:+ text := by
  rcases opened_cases text with empty | ⟨_, ends⟩
  · rw [empty]
    exact List.nil_suffix
  · exact ends

theorem concat_suffix_cases {bytes text : Bytes} {byte : UInt8} (ends : bytes <:+ text ++ [byte])
    (nonempty : bytes ≠ []) : ∃ front, bytes = front ++ [byte] ∧ front <:+ text := by
  rw [List.suffix_concat_iff] at ends
  rcases ends with empty | ⟨front, rfl, frontEnds⟩
  · contradiction
  · exact ⟨front, rfl, frontEnds⟩

theorem opened_concat (text : Bytes) (byte : UInt8) :
    opened (text ++ [byte]) =
      if isOpen (opened text ++ [byte]) = true then opened text ++ [byte]
      else if isOpen [byte] = true then [byte] else [] := by
  split
  next awaits =>
      obtain ⟨before, joined⟩ := opened_suffix text
      apply opened_of_suffix awaits
      exact ⟨before, by rw [← List.append_assoc, joined]⟩
  next fails =>
      split
      next begins => exact opened_of_suffix begins (List.suffix_append text [byte])
      next ends =>
          apply opened_eq_nil
          intro bytes suffix
          rw [Bool.eq_false_iff]
          intro awaits
          have nonempty : bytes ≠ [] := by
            rintro rfl
            cases awaits
          obtain ⟨front, rfl, frontEnds⟩ := concat_suffix_cases suffix nonempty
          by_cases empty : front = []
          · subst empty
            exact ends awaits
          · rw [opened_of_suffix (isOpen_concat empty awaits).1 frontEnds] at fails
            exact fails awaits

theorem wellFormed_suffix_iff (text bytes : Bytes) (byte : UInt8) :
    (bytes <:+ text ++ [byte] ∧ wellFormed bytes = true) ↔
      (bytes = opened text ++ [byte] ∨ bytes = [byte]) ∧ wellFormed bytes = true := by
  constructor
  · rintro ⟨suffix, formed⟩
    refine ⟨?_, formed⟩
    have nonempty : bytes ≠ [] := by
      rintro rfl
      cases formed
    obtain ⟨front, rfl, frontEnds⟩ := concat_suffix_cases suffix nonempty
    by_cases empty : front = []
    · right
      rw [empty, List.nil_append]
    · left
      rw [opened_of_suffix (wellFormed_concat empty formed).1 frontEnds]
  · rintro ⟨whole | single, formed⟩
    · rw [whole] at formed ⊢
      obtain ⟨before, joined⟩ := opened_suffix text
      refine ⟨⟨before, ?_⟩, formed⟩
      rw [← List.append_assoc, joined]
    · rw [single] at formed ⊢
      exact ⟨List.suffix_append text [byte], formed⟩

/-! ### The reader -/

inductive Token where
  | char (bytes : Bytes)
  | error
deriving DecidableEq, Repr

/-- One byte behind the bytes held: what it completes or breaks, and what is held then.  A byte
that breaks a sequence is looked at again as a first byte. -/
def scanByte (held : Bytes) (byte : UInt8) : List Token × Bytes :=
  if isOpen (held ++ [byte]) = true then ([], held ++ [byte])
  else if wellFormed (held ++ [byte]) = true then ([.char (held ++ [byte])], [])
  else if held = [] then ([.error], [])
  else if isOpen [byte] = true then ([.error], [byte])
  else if wellFormed [byte] = true then ([.error, .char [byte]], [])
  else ([.error, .error], [])

def scanFrom (held : Bytes) : Bytes → List Token × Bytes
  | [] => ([], held)
  | byte :: rest =>
      let later := scanFrom (scanByte held byte).2 rest
      ((scanByte held byte).1 ++ later.1, later.2)

def scan (text : Bytes) : List Token × Bytes := scanFrom [] text

theorem scanFrom_append (held first second : Bytes) :
    scanFrom held (first ++ second) =
      ((scanFrom held first).1 ++ (scanFrom (scanFrom held first).2 second).1,
        (scanFrom (scanFrom held first).2 second).2) := by
  induction first generalizing held with
  | nil => rfl
  | cons byte rest ih =>
      simp only [List.cons_append, scanFrom, ih, List.append_assoc]

theorem scan_concat (text : Bytes) (byte : UInt8) :
    scan (text ++ [byte]) =
      ((scan text).1 ++ (scanByte (scan text).2 byte).1, (scanByte (scan text).2 byte).2) := by
  rw [scan, scanFrom_append]
  simp only [scanFrom, List.append_nil]
  rfl

theorem alone_of_continues {held : Bytes} {byte : UInt8} (some : held ≠ [])
    (continues : isOpen (held ++ [byte]) = true ∨ wellFormed (held ++ [byte]) = true) :
    isOpen [byte] = false ∧ wellFormed [byte] = false := by
  have tail : isTail byte = true := by
    rcases continues with awaits | formed
    · exact (isOpen_concat some awaits).2
    · exact (wellFormed_concat some formed).2
  constructor
  · rw [Bool.eq_false_iff]
    intro opens
    rw [not_isTail_of_isOpen opens] at tail
    cases tail
  · rw [Bool.eq_false_iff]
    intro whole
    rw [not_isTail_of_wellFormed whole] at tail
    cases tail

theorem scan_held (text : Bytes) : (scan text).2 = opened text := by
  induction text using List.reverseRecOn with
  | nil => rfl
  | append_singleton text byte ih =>
      rw [scan_concat, opened_concat, ih, scanByte]
      by_cases awaits : isOpen (opened text ++ [byte]) = true
      · rw [if_pos awaits, if_pos awaits]
      · rw [if_neg awaits, if_neg awaits]
        by_cases formed : wellFormed (opened text ++ [byte]) = true
        · have begins : isOpen [byte] = false := by
            by_cases empty : opened text = []
            · rw [empty] at formed
              exact not_isOpen_of_wellFormed formed
            · exact (alone_of_continues empty (.inr formed)).1
          rw [if_pos formed, begins]
          rfl
        · rw [if_neg formed]
          by_cases empty : opened text = []
          · rw [if_pos empty]
            rw [empty] at awaits
            exact (if_neg awaits).symm
          · rw [if_neg empty]
            split
            · rfl
            · split <;> rfl

theorem char_mem_scanByte (text bytes : Bytes) (byte : UInt8) :
    .char bytes ∈ (scanByte (scan text).2 byte).1 ↔
      bytes <:+ text ++ [byte] ∧ wellFormed bytes = true := by
  rw [wellFormed_suffix_iff, scan_held, scanByte]
  generalize opened text = held
  by_cases awaits : isOpen (held ++ [byte]) = true
  · rw [if_pos awaits]
    constructor
    · intro member
      cases member
    · rintro ⟨whole | single, formed⟩
      · rw [← whole, not_isOpen_of_wellFormed formed] at awaits
        cases awaits
      · rw [single] at formed
        by_cases empty : held = []
        · rw [empty, List.nil_append, not_isOpen_of_wellFormed formed] at awaits
          cases awaits
        · rw [(alone_of_continues empty (.inl awaits)).2] at formed
          cases formed
  · rw [if_neg awaits]
    by_cases formed : wellFormed (held ++ [byte]) = true
    · rw [if_pos formed, List.mem_singleton, Token.char.injEq]
      constructor
      · intro whole
        rw [whole]
        exact ⟨.inl rfl, formed⟩
      · rintro ⟨whole | single, alone⟩
        · exact whole
        · by_cases empty : held = []
          · rw [empty, single, List.nil_append]
          · rw [single, (alone_of_continues empty (.inr formed)).2] at alone
            cases alone
    · rw [if_neg formed]
      have onlySingle : ((bytes = held ++ [byte] ∨ bytes = [byte]) ∧ wellFormed bytes = true) ↔
          bytes = [byte] ∧ wellFormed [byte] = true := by
        constructor
        · rintro ⟨whole | single, alone⟩
          · rw [whole] at alone
            exact absurd alone formed
          · rw [single] at alone
            exact ⟨single, alone⟩
        · rintro ⟨single, alone⟩
          rw [single]
          exact ⟨.inr rfl, alone⟩
      rw [onlySingle]
      by_cases empty : held = []
      · rw [empty] at formed
        rw [if_pos empty]
        simp only [List.mem_singleton, reduceCtorEq, false_iff, not_and]
        exact fun _ => formed
      · rw [if_neg empty]
        by_cases opens : isOpen [byte] = true
        · rw [if_pos opens]
          simp only [List.mem_singleton, reduceCtorEq, false_iff, not_and]
          intro _ alone
          rw [not_isOpen_of_wellFormed alone] at opens
          cases opens
        · rw [if_neg opens]
          by_cases alone : wellFormed [byte] = true
          · simp [alone]
          · simp [alone]

theorem error_mem_scanByte (text : Bytes) (byte : UInt8) :
    .error ∈ (scanByte (scan text).2 byte).1 ↔
      ¬ (isOpen (opened text ++ [byte]) = true ∨ wellFormed (opened text ++ [byte]) = true) := by
  rw [scan_held, scanByte]
  by_cases awaits : isOpen (opened text ++ [byte]) = true
  · rw [if_pos awaits]
    simp [awaits]
  · rw [if_neg awaits]
    by_cases formed : wellFormed (opened text ++ [byte]) = true
    · rw [if_pos formed]
      simp [formed]
    · rw [if_neg formed]
      have neither : ¬ (isOpen (opened text ++ [byte]) = true ∨
          wellFormed (opened text ++ [byte]) = true) := by
        rintro (opens | whole)
        · exact awaits opens
        · exact formed whole
      refine iff_of_true ?_ neither
      split
      · exact List.mem_singleton_self _
      · split
        · exact List.mem_singleton_self _
        · split <;> exact List.mem_cons_self

/-! ### Texts without errors -/

theorem scanFrom_open (held bytes : Bytes)
    (begins : ∀ front, front <+: bytes → front ≠ [] → isOpen (held ++ front) = true) :
    scanFrom held bytes = ([], held ++ bytes) := by
  induction bytes generalizing held with
  | nil => rw [scanFrom, List.append_nil]
  | cons byte rest ih =>
      have first : isOpen (held ++ [byte]) = true :=
        begins [byte] (List.prefix_append [byte] rest) (List.cons_ne_nil _ _)
      have next : scanByte held byte = ([], held ++ [byte]) := by rw [scanByte, if_pos first]
      have later := ih (held ++ [byte]) (by
        intro front inside _
        rw [List.append_assoc]
        exact begins ([byte] ++ front) (List.prefix_append_right_inj [byte] |>.mpr inside)
          (List.cons_ne_nil _ _))
      simp only [scanFrom, next, later, List.append_assoc, List.cons_append, List.nil_append]

theorem isOpen_front {front bytes : Bytes} (inside : front <+: bytes) (some : front ≠ [])
    (awaits : isOpen bytes = true) : isOpen front = true := by
  obtain ⟨behind, rfl⟩ := inside
  cases front with
  | nil => contradiction
  | cons lead rest =>
      rw [List.cons_append, isOpen_cons, List.length_append] at awaits
      obtain ⟨range, tails, short⟩ := awaits
      exact (isOpen_cons _ _).mpr
        ⟨range, fun byte member => tails byte (List.mem_append_left _ member), by omega⟩

theorem scanFrom_nil_open {held : Bytes} (awaits : held = [] ∨ isOpen held = true) :
    scanFrom [] held = ([], held) := by
  rcases awaits with rfl | awaits
  · rfl
  · exact scanFrom_open [] held fun front inside some => isOpen_front inside some awaits

theorem scanFrom_wellFormed {bytes : Bytes} (formed : wellFormed bytes = true) :
    scanFrom [] bytes = ([.char bytes], []) := by
  rcases bytes.eq_nil_or_concat with rfl | ⟨front, byte, rfl⟩
  · cases formed
  · rw [List.concat_eq_append] at formed ⊢
    have awaits : front = [] ∨ isOpen front = true := by
      by_cases empty : front = []
      · exact .inl empty
      · exact .inr (wellFormed_concat empty formed).1
    rw [scanFrom_append, scanFrom_nil_open awaits]
    simp only [scanFrom, scanByte, formed, not_isOpen_of_wellFormed formed, if_true, reduceCtorEq,
      if_false, List.nil_append, List.append_nil]

theorem scanByte_chars {held bytes : Bytes} {byte : UInt8} {seqs : List Bytes}
    (clean : scanByte held byte = (seqs.map .char, bytes)) :
    seqs.flatten ++ bytes = held ++ [byte] ∧ (∀ seq ∈ seqs, wellFormed seq = true) ∧
      (bytes = [] ∨ isOpen bytes = true) := by
  have noError : Token.error ∉ (scanByte held byte).1 := by
    rw [clean]
    simp
  rw [scanByte] at clean noError
  by_cases awaits : isOpen (held ++ [byte]) = true
  · rw [if_pos awaits, Prod.mk.injEq, eq_comm, List.map_eq_nil_iff] at clean
    obtain ⟨rfl, rfl⟩ := clean
    exact ⟨rfl, by simp, .inr awaits⟩
  · rw [if_neg awaits] at clean noError
    by_cases formed : wellFormed (held ++ [byte]) = true
    · rw [if_pos formed, Prod.mk.injEq, eq_comm, List.map_eq_singleton_iff] at clean
      obtain ⟨⟨seq, rfl, same⟩, rfl⟩ := clean
      injection same with same
      rw [same]
      exact ⟨by simp, by simpa using formed, .inl rfl⟩
    · rw [if_neg formed] at noError
      exfalso
      apply noError
      split
      · exact List.mem_singleton_self _
      · split
        · exact List.mem_singleton_self _
        · split <;> exact List.mem_cons_self

/-- A text is read without an error exactly when it is a row of well-formed sequences and the
beginning of another one. -/
theorem scan_eq_iff (text held : Bytes) (seqs : List Bytes) :
    scan text = (seqs.map .char, held) ↔
      seqs.flatten ++ held = text ∧ (∀ seq ∈ seqs, wellFormed seq = true) ∧
        (held = [] ∨ isOpen held = true) := by
  constructor
  · intro clean
    induction text using List.reverseRecOn generalizing seqs held with
    | nil =>
        rw [scan, scanFrom, Prod.mk.injEq, eq_comm, List.map_eq_nil_iff] at clean
        obtain ⟨rfl, rfl⟩ := clean
        exact ⟨rfl, by simp, .inl rfl⟩
    | append_singleton text byte ih =>
        rw [scan_concat, Prod.mk.injEq] at clean
        obtain ⟨tokens, last⟩ := clean
        obtain ⟨before, now, rfl, earlier, added⟩ := List.map_eq_append_iff.mp tokens.symm
        obtain ⟨joined, formed, _⟩ := ih _ before (Prod.ext earlier.symm rfl)
        obtain ⟨stepJoined, stepFormed, stepHeld⟩ := scanByte_chars (Prod.ext added.symm last)
        refine ⟨?_, ?_, stepHeld⟩
        · rw [List.flatten_append, List.append_assoc, stepJoined, ← List.append_assoc, joined]
        · intro seq member
          rcases List.mem_append.mp member with old | new
          · exact formed seq old
          · exact stepFormed seq new
  · rintro ⟨rfl, formed, awaits⟩
    induction seqs with
    | nil => exact scanFrom_nil_open awaits
    | cons seq rest ih =>
        have later := ih fun other member => formed other (List.mem_cons_of_mem _ member)
        rw [scan] at later
        rw [scan, List.flatten_cons, List.append_assoc, scanFrom_append,
          scanFrom_wellFormed (formed seq List.mem_cons_self), later]
        rfl

/-! ### A text with its end -/

/-- The tokens of a text; what is left open at the end is an error. -/
def readFrom (held text : Bytes) : List Token :=
  (scanFrom held text).1 ++ if (scanFrom held text).2 = [] then [] else [.error]

theorem readFrom_nil (held : Bytes) : readFrom held [] = if held = [] then [] else [.error] := rfl

theorem readFrom_open {held : Bytes} {byte : UInt8} (rest : Bytes)
    (opens : isOpen (held ++ [byte]) = true) :
    readFrom held (byte :: rest) = readFrom (held ++ [byte]) rest := by
  have next : scanByte held byte = ([], held ++ [byte]) := if_pos opens
  simp only [readFrom, scanFrom, next, List.nil_append]

theorem readFrom_wellFormed {held : Bytes} {byte : UInt8} (rest : Bytes)
    (formed : wellFormed (held ++ [byte]) = true) :
    readFrom held (byte :: rest) = .char (held ++ [byte]) :: readFrom [] rest := by
  have next : scanByte held byte = ([.char (held ++ [byte])], []) := by
    rw [scanByte, not_isOpen_of_wellFormed formed, formed]
    rfl
  simp only [readFrom, scanFrom, next, List.cons_append, List.nil_append]

theorem readFrom_wrong_first {byte : UInt8} (rest : Bytes) (closed : isOpen [byte] = false)
    (illFormed : wellFormed [byte] = false) :
    readFrom [] (byte :: rest) = .error :: readFrom [] rest := by
  have next : scanByte [] byte = ([.error], []) := by
    rw [scanByte, List.nil_append, closed, illFormed]
    rfl
  simp only [readFrom, scanFrom, next, List.cons_append, List.nil_append]

theorem readFrom_wrong_inside {held : Bytes} {byte : UInt8} (rest : Bytes) (some : held ≠ [])
    (closed : isOpen (held ++ [byte]) = false) (illFormed : wellFormed (held ++ [byte]) = false) :
    readFrom held (byte :: rest) = .error :: readFrom [] (byte :: rest) := by
  have next : scanByte held byte = (.error :: (scanByte [] byte).1, (scanByte [] byte).2) := by
    rw [scanByte, scanByte, closed, illFormed, if_neg some, List.nil_append]
    simp only [Bool.false_eq_true, if_false, if_true]
    split
    · rfl
    · split <;> rfl
  simp only [readFrom, scanFrom, next, List.cons_append]
  rfl

end Pttbbs.Lib
