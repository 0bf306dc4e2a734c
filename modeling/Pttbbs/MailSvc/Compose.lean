/-
The mails that are sent out.

A mail has a part without colours and one in HTML or a file, each in lines of base64.  No
such line begins like a boundary, so a mail is read back as the parts it was made of.
-/

import Pttbbs.Lib.Base64
import Pttbbs.MailSvc.Ansi

namespace Pttbbs.MailSvc.Compose

open Pttbbs.Lib Ansi

def crlf : Bytes := [13, 10]

def textOf (lines : List Bytes) : Bytes := lines.flatMap (· ++ crlf)

/-! ### Lines of base64 -/

structure LineWriter where
  out : Bytes := []
  col : Nat := 0
  inLine : col < 76 := by decide

namespace LineWriter

def write (writer : LineWriter) (p : Bytes) : LineWriter :=
  if empty : p = [] then writer
  else
    have some' := List.length_pos_iff.mpr empty
    have inLine := writer.inLine
    let k := min (76 - writer.col) p.length
    if full : writer.col + k = 76 then
      write { out := writer.out ++ p.take k ++ crlf } (p.drop k)
    else
      write { out := writer.out ++ p.take k, col := writer.col + k, inLine := by omega }
        (p.drop k)
termination_by p.length
decreasing_by all_goals rw [List.length_drop]; omega

def end_ (writer : LineWriter) : Bytes :=
  if 0 < writer.col then writer.out ++ crlf else writer.out

structure Wrote (writer : LineWriter) (text : Bytes) (lines : List Bytes) (last : Bytes) :
    Prop where
  out : writer.out = textOf lines ++ last
  text : lines.flatten ++ last = text
  full : ∀ line ∈ lines, line.length = 76
  col : last.length = writer.col

theorem Wrote.write {writer : LineWriter} {text : Bytes} {lines : List Bytes} {last : Bytes}
    (wrote : Wrote writer text lines last) (p : Bytes) :
    ∃ lines last, Wrote (writer.write p) (text ++ p) lines last := by
  induction writer, p using LineWriter.write.induct generalizing text lines last with
  | case1 writer =>
      rw [LineWriter.write, dif_pos rfl, List.append_nil]
      exact ⟨lines, last, wrote⟩
  | case2 =>
      rename_i writer p empty _ _ k full ih
      rw [LineWriter.write, dif_neg empty, dif_pos full]
      have more := @ih (text ++ p.take k) (lines ++ [last ++ p.take k]) []
      rw [List.append_assoc text, List.take_append_drop] at more
      refine more ⟨?_, ?_, ?_, rfl⟩
      · simp [wrote.out, textOf]
      · simp [← wrote.text]
      · intro line member
        rcases List.mem_append.mp member with old | new
        · exact wrote.full line old
        · rw [List.mem_singleton.mp new, List.length_append, List.length_take, wrote.col]
          omega
  | case3 =>
      rename_i writer p empty _ _ k notFull ih
      rw [LineWriter.write, dif_neg empty, dif_neg notFull]
      have more := @ih (text ++ p.take k) lines (last ++ p.take k)
      rw [List.append_assoc text, List.take_append_drop] at more
      refine more ⟨?_, ?_, wrote.full, ?_⟩
      · simp [wrote.out]
      · simp [← wrote.text]
      · rw [List.length_append, List.length_take, wrote.col, Nat.min_eq_left (Nat.min_le_right _ _)]

theorem Wrote.writes {writer : LineWriter} {text : Bytes} {lines : List Bytes} {last : Bytes}
    (wrote : Wrote writer text lines last) (pieces : List Bytes) :
    ∃ lines last, Wrote (pieces.foldl LineWriter.write writer) (text ++ pieces.flatten)
      lines last := by
  induction pieces generalizing writer text lines last with
  | nil => exact ⟨lines, last, by simpa using wrote⟩
  | cons piece pieces ih =>
      obtain ⟨next, rest, wrote⟩ := wrote.write piece
      rw [List.flatten_cons, ← List.append_assoc]
      exact ih wrote

end LineWriter

section Mails

-- The writes of the encoder of the library for a text.
variable (encoder : Bytes → List Bytes)

def writeBase64 (text : Bytes) : Bytes := ((encoder text).foldl LineWriter.write {}).end_

theorem writeBase64_lines (text : Bytes) :
    ∃ lines, writeBase64 encoder text = textOf lines ∧
      lines.flatten = (encoder text).flatten ∧ ∀ line ∈ lines, line.length ≤ 76 := by
  have start : LineWriter.Wrote {} [] [] [] := ⟨rfl, rfl, by simp, rfl⟩
  obtain ⟨lines, last, wrote⟩ := start.writes (encoder text)
  rw [writeBase64, LineWriter.end_, ← wrote.col, wrote.out, ← List.nil_append (encoder text).flatten,
    ← wrote.text]
  by_cases empty : last = []
  · exact ⟨lines, by simp [empty], by simp [empty], fun line member => (wrote.full line member).le⟩
  · refine ⟨lines ++ [last], ?_, by simp, ?_⟩
    · rw [if_pos (List.length_pos_iff.mpr empty)]
      simp [textOf]
    · intro line member
      rcases List.mem_append.mp member with old | new
      · exact (wrote.full line old).le
      · rw [List.mem_singleton.mp new, wrote.col]
        exact Nat.le_of_lt (LineWriter.inLine _)

/-! ### The parts -/

def dashed (boundary : Bytes) : Bytes := [45, 45] ++ boundary

abbrev Part := List Bytes × Bytes

def writePart (boundary : Bytes) (part : Part) : Bytes :=
  dashed boundary ++ crlf ++ textOf part.1 ++ crlf ++ writeBase64 encoder part.2

def multipart (kind : String) : Bytes :=
  utf8 "Content-Type: multipart/" ++ (utf8 kind ++ utf8 "; boundary=\"")

/-- What the source does for both kinds of mail; `headers` are the lines of `writeHeaders`. -/
def composeParts (kind : String) (headers : List Bytes) (boundary : Bytes) (parts : List Part) :
    Bytes :=
  textOf headers ++ multipart kind ++ boundary ++ [34] ++ crlf ++ crlf ++
    parts.flatMap (writePart encoder boundary) ++ dashed boundary ++ [45, 45] ++ crlf

def inBase64 : Bytes := utf8 "Content-Transfer-Encoding: base64"

def typeLines (kind : String) : List Bytes :=
  [utf8 "Content-Type: text/" ++ utf8 kind ++ utf8 "; charset=UTF-8", inBase64]

def fileLines (filename ctype : Bytes) : List Bytes :=
  [utf8 "Content-Type: " ++ ctype,
    utf8 "Content-Disposition: attachment; filename=\"" ++ (filename ++ [34]), inBase64]

def composeText (wide : Nat → Bool) (headers : List Bytes) (boundary body : Bytes) :
    Option Bytes :=
  (htmlText wide body).map fun page =>
    composeParts encoder "alternative" headers boundary
      [(typeLines "plain", plainText body), (typeLines "html", page)]

def composeAttachment (headers : List Bytes) (boundary body filename ctype data : Bytes) : Bytes :=
  composeParts encoder "mixed" headers boundary
    [(typeLines "plain", plainText body), (fileLines filename ctype, data)]

end Mails

/-! ### Reading a mail back -/

def linesOf (text : Bytes) : List Bytes := (splitOn newline text).dropLast.map List.dropLast

/-- The lines in front of the first boundary, and the parts behind it. -/
def readParts (boundary : Bytes) : List Bytes → Option (List Bytes × List (List Bytes))
  | [] => none
  | line :: rest =>
      if line = dashed boundary ++ [45, 45] then some ([], [])
      else
        (readParts boundary rest).map fun read =>
          if line = dashed boundary then ([], read.1 :: read.2) else (line :: read.1, read.2)

/-- The header of a part, and what its body stands for. -/
def readPart (lines : List Bytes) : Part :=
  (lines.takeWhile (· ≠ []), Base64.decode (lines.dropWhile (· ≠ [])).flatten)

def readMail (boundary mail : Bytes) : Option (List Part) :=
  (readParts boundary (linesOf mail)).map fun read => read.2.map readPart

abbrev IsPlain (line : Bytes) : Prop := newline ∉ line ∧ line.head? ≠ some 45

theorem linesOf_textOf {lines : List Bytes} (whole : ∀ line ∈ lines, newline ∉ line) :
    linesOf (textOf lines) = lines := by
  have split : splitOn newline (textOf lines) = lines.map (· ++ [13]) ++ [[]] := by
    induction lines with
    | nil => rfl
    | cons line lines ih =>
        rw [List.forall_mem_cons] at whole
        rw [textOf, List.flatMap_cons, show crlf = [13] ++ [newline] from rfl,
          ← List.append_assoc, List.append_assoc, List.singleton_append, splitOn_append_cons,
          splitOn_of_not_mem _ _ (by simpa [newline] using whole.1)]
        exact congrArg _ (ih whole.2)
  rw [linesOf, split, List.dropLast_concat, List.map_map]
  simp [Function.comp_def]

theorem readParts_plain {boundary : Bytes} {lines : List Bytes}
    (plain : ∀ line ∈ lines, IsPlain line) (rest : List Bytes) :
    readParts boundary (lines ++ rest) =
      (readParts boundary rest).map fun read => (lines ++ read.1, read.2) := by
  induction lines with
  | nil => simp
  | cons line lines ih =>
      rw [List.forall_mem_cons] at plain
      have apart (tail : Bytes) : line ≠ dashed boundary ++ tail := by
        rintro rfl
        exact plain.1.2 rfl
      rw [List.cons_append, readParts, if_neg (apart _), ih plain.2, Option.map_map]
      simp [Function.comp_def, List.append_nil (dashed boundary) ▸ apart []]

theorem readParts_dashed (boundary : Bytes) (rest : List Bytes) :
    readParts boundary (dashed boundary :: rest) =
      (readParts boundary rest).map fun read => ([], read.1 :: read.2) := by
  rw [readParts, if_neg (by simp)]
  simp

theorem isPlain_base64 {lines : List Bytes} {text : Bytes}
    (whole : lines.flatten = Base64.encode text) : ∀ line ∈ lines, IsPlain line := by
  intro line member
  have each : ∀ byte ∈ line, (Base64.digit? byte).isSome = true ∨ byte = Base64.pad := by
    intro byte inside
    apply @Base64.mem_encode text
    rw [← whole]
    exact List.mem_flatten.mpr ⟨line, member, inside⟩
  refine ⟨fun inside => absurd (each newline inside) (by decide), ?_⟩
  cases line with
  | nil => simp
  | cons byte rest =>
      rintro same
      cases same
      exact absurd (each 45 List.mem_cons_self) (by decide)

theorem readPart_of {header lines : List Bytes} {text : Bytes}
    (full : ∀ line ∈ header, line ≠ []) (whole : lines.flatten = Base64.encode text) :
    readPart (header ++ [] :: lines) = (header, text) := by
  have all : ∀ line ∈ header, decide (line ≠ []) = true := fun line member =>
    decide_eq_true (full line member)
  rw [readPart, List.takeWhile_append_of_pos all, List.dropWhile_append_of_pos all]
  simp [whole, Base64.decode_encode]

/-- The lines written in front of a body begin with `C`. -/
theorem isPlain_field {name value : Bytes} (begins : name.head? = some 67)
    (whole : newline ∉ name) (inLine : newline ∉ value) :
    IsPlain (name ++ value) ∧ name ++ value ≠ [] := by
  refine ⟨⟨by simp [whole, inLine], by simp [List.head?_append, begins]⟩, ?_⟩
  rintro none
  rw [(List.append_eq_nil_iff.mp none).1] at begins
  cases begins

/-- The lines of the parts, and what is read from them. -/
theorem writeParts_lines {encoder : Bytes → List Bytes} {boundary : Bytes}
    (writes : ∀ text, (encoder text).flatten = Base64.encode text) (inLine : newline ∉ boundary)
    {parts : List Part} (each : ∀ part ∈ parts, ∀ line ∈ part.1, IsPlain line ∧ line ≠ []) :
    ∃ lines, parts.flatMap (writePart encoder boundary) = textOf lines ∧
      (∀ line ∈ lines, newline ∉ line) ∧
      ∃ read, readParts boundary (lines ++ [dashed boundary ++ [45, 45]]) = some ([], read) ∧
        read.map readPart = parts := by
  induction parts with
  | nil => exact ⟨[], rfl, by simp, [], by simp [readParts], rfl⟩
  | cons part parts ih =>
      rw [List.forall_mem_cons] at each
      obtain ⟨rest, written, whole, read, reads, same⟩ := ih each.2
      obtain ⟨first, firstWritten, firstWhole, _⟩ := writeBase64_lines encoder part.2
      rw [writes] at firstWhole
      have plain : ∀ line ∈ part.1 ++ [] :: first, IsPlain line := by
        simp only [List.forall_mem_append, List.forall_mem_cons]
        exact ⟨fun line member => (each.1 line member).1, by decide, isPlain_base64 firstWhole⟩
      refine ⟨dashed boundary :: (part.1 ++ [] :: first) ++ rest, ?_, ?_,
        (part.1 ++ [] :: first) :: read, ?_, ?_⟩
      · rw [List.flatMap_cons, written, writePart, firstWritten]
        simp [textOf]
      · rw [List.cons_append, List.forall_mem_cons, List.forall_mem_append]
        exact ⟨by simpa [dashed, newline] using inLine, fun line member => (plain line member).1,
          whole⟩
      · rw [List.cons_append, List.cons_append, readParts_dashed, List.append_assoc,
          readParts_plain plain, reads]
        simp
      · rw [List.map_cons, readPart_of (fun line member => (each.1 line member).2) firstWhole, same]

theorem readMail_composeParts {encoder : Bytes → List Bytes} {kind : String}
    {headers : List Bytes} {boundary : Bytes} {parts : List Part}
    (writes : ∀ text, (encoder text).flatten = Base64.encode text)
    (plain : ∀ line ∈ headers, IsPlain line) (inLine : newline ∉ boundary)
    (named : newline ∉ utf8 kind)
    (each : ∀ part ∈ parts, ∀ line ∈ part.1, IsPlain line ∧ line ≠ []) :
    readMail boundary (composeParts encoder kind headers boundary parts) = some parts := by
  obtain ⟨lines, written, whole, read, reads, same⟩ := writeParts_lines writes inLine each
  have inFront : ∀ line ∈ headers ++ [multipart kind ++ boundary ++ [34], []], IsPlain line := by
    simp only [List.forall_mem_append, List.forall_mem_cons]
    refine ⟨plain, ?_, by decide, by simp⟩
    rw [multipart, List.append_assoc, List.append_assoc]
    refine (isPlain_field (by decide) (by decide) ?_).1
    simp only [List.mem_append, not_or]
    exact ⟨⟨named, by decide⟩, inLine, by decide⟩
  have mail : composeParts encoder kind headers boundary parts =
      textOf ((headers ++ [multipart kind ++ boundary ++ [34], []]) ++
        (lines ++ [dashed boundary ++ [45, 45]])) := by
    rw [composeParts, written]
    simp [textOf]
  rw [mail, readMail, linesOf_textOf, readParts_plain inFront, reads]
  · simp [same]
  · refine List.forall_mem_append.mpr ⟨fun line member => (inFront line member).1,
      List.forall_mem_append.mpr ⟨whole, ?_⟩⟩
    simpa [dashed, newline] using inLine

/-- However the encoder cuts its output, both kinds of mail are read back as the parts they
were made of. -/
theorem readMail_composed (encoder : Bytes → List Bytes) {wide : Nat → Bool}
    {headers : List Bytes} {boundary body filename ctype : Bytes}
    (writes : ∀ text, (encoder text).flatten = Base64.encode text)
    (plain : ∀ line ∈ headers, IsPlain line) (inLine : newline ∉ boundary)
    (named : newline ∉ filename) (typed : newline ∉ ctype) (data : Bytes) :
    (composeText encoder wide headers boundary body).bind (readMail boundary) =
        (htmlText wide body).map (fun page =>
          [(typeLines "plain", plainText body), (typeLines "html", page)]) ∧
      readMail boundary (composeAttachment encoder headers boundary body filename ctype data) =
        some [(typeLines "plain", plainText body), (fileLines filename ctype, data)] := by
  have inPlain : ∀ line ∈ typeLines "plain", IsPlain line ∧ line ≠ [] := by decide
  have inHtml : ∀ line ∈ typeLines "html", IsPlain line ∧ line ≠ [] := by decide
  have alternative : newline ∉ utf8 "alternative" := by decide
  have mixed : newline ∉ utf8 "mixed" := by decide
  constructor
  · rw [composeText]
    cases htmlText wide body with
    | none => rfl
    | some page =>
        refine readMail_composeParts writes plain inLine alternative ?_
        rw [List.forall_mem_cons, List.forall_mem_singleton]
        exact ⟨inPlain, inHtml⟩
  · refine readMail_composeParts writes plain inLine mixed ?_
    rw [List.forall_mem_cons, List.forall_mem_singleton]
    refine ⟨inPlain, ?_⟩
    simp only [fileLines, List.forall_mem_cons]
    refine ⟨isPlain_field (by decide) (by decide) typed,
      isPlain_field (by decide) (by decide) ?_, by decide, by simp⟩
    simpa [newline] using named

theorem readMail_composed_archive :
    let encoder := fun text => [Base64.encode text]
    let body := utf8 "a<b"
    let name := utf8 "home.a.tgz"
    (composeText encoder (fun _ => false) [] body body).bind (readMail body) =
        (htmlText (fun _ => false) body).map (fun page =>
          [(typeLines "plain", plainText body), (typeLines "html", page)]) ∧
      readMail body (composeAttachment encoder [] body body name name [31, 139]) =
        some [(typeLines "plain", plainText body), (fileLines name name, [31, 139])] :=
  @readMail_composed _ _ _ _ _ _ _ (by simp) (by decide) (by decide) (by decide) (by decide) _

end Pttbbs.MailSvc.Compose
