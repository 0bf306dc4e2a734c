/-
Records made of header lines, a blank line and a body.

A header line is a name, a colon, a blank and a value.  A reader finds the
blank line, cuts each line before it at the first separator, and lets a later
line override an earlier one of the same name.  Writing and reading are inverse
as long as no name holds a colon and neither part of a line holds a line break.
-/

import Pttbbs.Lib.Text

namespace Pttbbs.Lib

abbrev Headers := List (Bytes × Bytes)

def colonBlank : Bytes := [58, 32]

def headerText (header : Bytes × Bytes) : Bytes := header.1 ++ colonBlank ++ header.2

def writeRecord (headers : Headers) (body : Bytes) : Bytes :=
  headers.flatMap (fun header => headerText header ++ [newline]) ++ newline :: body

def readRecord (value : Bytes) : Option (Headers × Bytes) :=
  (cut [newline, newline] value).map (fun parts =>
    ((splitOn newline parts.1).filterMap (cut colonBlank), parts.2))

def field (headers : Headers) (name : String) : Bytes :=
  headers.foldl (fun found header => if header.1 = utf8 name then header.2 else found) []

def nameOk (name : Bytes) : Bool := 58 ∉ name && newline ∉ name

structure Writable (header : Bytes × Bytes) : Prop where
  name : nameOk header.1 = true
  value : newline ∉ header.2

private theorem headerText_newline {header : Bytes × Bytes} (writable : Writable header) :
    newline ∉ headerText header := by
  have names := writable.name
  simp only [nameOk, Bool.and_eq_true, decide_eq_true_eq] at names
  unfold headerText
  rw [List.mem_append, List.mem_append]
  rintro ((inName | inSeparator) | inValue)
  · exact names.2 inName
  · exact absurd inSeparator (by decide)
  · exact writable.value inValue

private theorem headerText_head {header : Bytes × Bytes} (writable : Writable header)
    (rest : Bytes) : (headerText header ++ rest).head? ≠ some newline := by
  cases text : headerText header with
  | nil =>
      have lengthEq := congrArg List.length text
      simp [headerText, colonBlank] at lengthEq
  | cons byte tail =>
      intro same
      have atHead : byte = newline := Option.some.inj same
      apply headerText_newline writable
      rw [text, atHead]
      exact List.mem_cons_self

private theorem cut_headerText {header : Bytes × Bytes} (writable : Writable header) :
    cut colonBlank (headerText header) = some header := by
  have names := writable.name
  simp only [nameOk, Bool.and_eq_true, decide_eq_true_eq] at names
  exact cut_append 58 [32] header.1 header.2 names.1

private theorem cut_writeRecord (header : Bytes × Bytes) (rest : Headers) (body : Bytes)
    (writable : ∀ other ∈ header :: rest, Writable other) :
    ∃ text, cut [newline, newline] (writeRecord (header :: rest) body) = some (text, body) ∧
      (splitOn newline text).filterMap (cut colonBlank) = header :: rest := by
  induction rest generalizing header with
  | nil =>
      have first := writable header List.mem_cons_self
      have noBreak := headerText_newline first
      refine ⟨headerText header, ?_, ?_⟩
      · have split := cut_append newline [newline] (headerText header) body noBreak
        simpa [writeRecord] using split
      · rw [splitOn_of_not_mem newline _ noBreak]
        simp [cut_headerText first]
  | cons next others ih =>
      have first := writable header List.mem_cons_self
      have later : ∀ other ∈ next :: others, Writable other := fun other member =>
        writable other (List.mem_cons_of_mem _ member)
      obtain ⟨text, found, lines⟩ := ih next later
      have unfolded : writeRecord (header :: next :: others) body =
          headerText header ++ newline :: writeRecord (next :: others) body := by
        simp [writeRecord]
      have opens : (writeRecord (next :: others) body).head? ≠ some newline := by
        have startsWith := headerText_head (later next List.mem_cons_self)
          ([newline] ++ (others.flatMap (fun other => headerText other ++ [newline]) ++
            newline :: body))
        simpa [writeRecord] using startsWith
      refine ⟨headerText header ++ newline :: text, ?_, ?_⟩
      · rw [unfolded]
        exact cut_double_of_single newline (headerText header) _ (headerText_newline first)
          opens (text, body) found
      · rw [splitOn_append_cons, splitOn_of_not_mem newline _ (headerText_newline first),
          List.filterMap_append, lines]
        simp [cut_headerText first]

theorem readRecord_writeRecord (headers : Headers) (body : Bytes) (nonempty : headers ≠ [])
    (writable : ∀ header ∈ headers, Writable header) :
    readRecord (writeRecord headers body) = some (headers, body) := by
  cases headers with
  | nil => exact absurd rfl nonempty
  | cons header rest =>
      obtain ⟨text, found, lines⟩ := cut_writeRecord header rest body writable
      rw [readRecord, found, Option.map_some, lines]

end Pttbbs.Lib
