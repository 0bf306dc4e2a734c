/-
The two versions of a mail.

A page is a row of coloured runs, each of escaped text and boxes of two columns for single
characters, and what a reader sees of it is the text of the runs.  `writeColumns` takes the
length of the rune for the length of what was read.  For a wrong byte these are three and
one: what follows the byte is lost or the code panics.  So the versions agree exactly where
every stretch of text is valid.
-/

import Pttbbs.MailSvc.Ansi

namespace Pttbbs.MailSvc.Ansi

open Pttbbs.Lib Html

/-! ### Pages -/

inductive Inline
  | text (content : Bytes)
  | box (rune : Nat) (high : 0x80 ≤ rune) (scalar : IsScalar rune)

def Inline.html : Inline → Bytes
  | .text content => escape content
  | .box rune _ _ => wideSpan ++ encodeUtf8 rune ++ spanEnd

def Inline.content : Inline → Bytes
  | .text content => content
  | .box rune _ _ => encodeUtf8 rune

structure Run where
  state : AnsiState
  inlines : List Inline

def Run.html (run : Run) : Bytes :=
  openSpan run.state.style ++ run.inlines.flatMap Inline.html ++ closeSpan run.state.style

def Run.content (run : Run) : Bytes := run.inlines.flatMap Inline.content

theorem escape_encodeUtf8 {rune : Nat} (high : 0x80 ≤ rune) (scalar : IsScalar rune) :
    escape (encodeUtf8 rune) = encodeUtf8 rune := by
  refine escape_high (high_of_wellFormed (wellFormed_encodeUtf8 scalar).1 ?_)
  rw [encodeUtf8, if_neg (not_lt.mpr high)]
  split_ifs <;> simp

theorem shown_inline (inline : Inline) (rest : Bytes) :
    shown (inline.html ++ rest) = inline.content ++ shown rest := by
  cases inline with
  | text content => exact shown_escape content rest
  | box rune high scalar =>
      have opening : ∀ behind, shown (wideSpan ++ behind) = shown behind :=
        @shown_tag (utf8 "span style=\"display:inline-block;width:2ch\"") (by decide)
      have closing : shown (spanEnd ++ rest) = shown rest := @shown_tag (utf8 "/span") (by decide) _
      rw [Inline.html, List.append_assoc, List.append_assoc, opening,
        ← escape_encodeUtf8 high scalar, shown_escape, closing]
      rfl

theorem shown_inlines (inlines : List Inline) (rest : Bytes) :
    shown (inlines.flatMap Inline.html ++ rest) = inlines.flatMap Inline.content ++ shown rest := by
  induction inlines with
  | nil => rfl
  | cons inline inlines ih =>
      rw [List.flatMap_cons, List.append_assoc, shown_inline, ih, List.flatMap_cons,
        List.append_assoc]

theorem shown_openSpan (state : AnsiState) (rest : Bytes) :
    shown (openSpan state.style ++ rest) = shown rest := by
  rw [openSpan]
  split
  · rfl
  · have free : 62 ∉ utf8 "span style=\"" ++ state.style ++ utf8 "\"" := by
      rw [List.mem_append, List.mem_append, not_or, not_or]
      exact ⟨⟨by decide, state.style_free⟩, by decide⟩
    have quoted : utf8 "\">" = utf8 "\"" ++ [62] := rfl
    have tag := shown_tag free rest
    rw [quoted, ← List.append_assoc _ _ [62], List.append_assoc _ [62], List.singleton_append]
    exact tag

theorem shown_closeSpan (style rest : Bytes) : shown (closeSpan style ++ rest) = shown rest := by
  rw [closeSpan]
  split
  · rfl
  · exact @shown_tag (utf8 "/span") (by decide) rest

theorem shown_runs (runs : List Run) : shown (runs.flatMap Run.html) = runs.flatMap Run.content := by
  induction runs with
  | nil => rfl
  | cons run runs ih =>
      rw [List.flatMap_cons, Run.html, List.append_assoc, List.append_assoc, shown_openSpan,
        shown_inlines, shown_closeSpan, ih]
      rfl

/-! ### Columns -/

section Columns

variable {wide : Nat → Bool} {t : Bytes}

theorem slice_eq {low high : Nat} {piece : Bytes} (taken : slice t low high = some piece) :
    low ≤ high ∧ high ≤ t.length ∧ piece.length = high - low ∧ t.drop low = piece ++ t.drop high := by
  obtain ⟨⟨order, inside⟩, same⟩ := Option.ite_none_right_eq_some.mp taken
  obtain rfl := Option.some.inj same
  refine ⟨order, inside, ?_, ?_⟩
  · rw [List.length_drop, List.length_take, Nat.min_eq_left inside]
  · conv_lhs => rw [← List.take_append_drop high t]
    exact List.drop_append_of_le_length (by rwa [List.length_take, Nat.min_eq_left inside])

theorem slice_some {low high : Nat} (order : low ≤ high) (inside : high ≤ t.length) :
    ∃ piece, slice t low high = some piece := ⟨_, if_pos ⟨order, inside⟩⟩

def Columned (out : Bytes) (start : Nat) (t : Bytes) (inlines : List Inline) : Prop :=
  out = inlines.flatMap Inline.html ∧
    (inlines.flatMap Inline.content).length + start = t.length

theorem columned_end {start : Nat} {out : Bytes}
    (written : writeColumnsFrom wide t t.length start [] = some out) :
    ∃ inlines, Columned out start t inlines ∧ inlines.flatMap Inline.content = t.drop start := by
  obtain ⟨piece, taken, rfl⟩ := Option.map_eq_some_iff.mp written
  obtain ⟨order, _, length, whole⟩ := slice_eq taken
  rw [List.drop_length, List.append_nil] at whole
  refine ⟨[.text piece], ⟨(List.append_nil _).symm, ?_⟩, ?_⟩
  · change (piece ++ []).length + start = t.length
    rw [List.append_nil, length]
    omega
  · exact (List.append_nil piece).trans whole.symm

theorem columned_box {i start r size : Nat} {runes : List (Nat × Nat)} {out : Bytes}
    (narrow : isNarrowWide wide r = true) (scalar : IsScalar r)
    (written : writeColumnsFrom wide t i start ((r, size) :: runes) = some out) :
    ∃ before after, slice t start i = some before ∧
      writeColumnsFrom wide t (i + size) (i + (encodeUtf8 r).length) runes = some after ∧
      ∀ inlines, Columned after (i + (encodeUtf8 r).length) t inlines →
        ∃ all, Columned out start t all ∧
          all.flatMap Inline.content = before ++ encodeUtf8 r ++ inlines.flatMap Inline.content := by
  rw [writeColumnsFrom, if_pos narrow] at written
  cases taken : slice t start i with
  | none =>
      rw [taken] at written
      cases written
  | some before =>
      rw [taken] at written
      obtain ⟨order, _, length, _⟩ := slice_eq taken
      cases behind : writeColumnsFrom wide t (i + size) (i + (encodeUtf8 r).length) runes with
      | none =>
          rw [behind] at written
          cases written
      | some after =>
          rw [behind] at written
          obtain rfl := Option.some.inj written
          refine ⟨before, after, rfl, rfl, fun inlines columned => ?_⟩
          obtain ⟨rfl, total⟩ := columned
          have high : 0x80 ≤ r := of_decide_eq_true (Bool.and_eq_true_iff.mp narrow).1
          have content : (Inline.text before :: .box r high scalar :: inlines).flatMap
              Inline.content = before ++ encodeUtf8 r ++ inlines.flatMap Inline.content :=
            (List.append_assoc before _ _).symm
          refine ⟨.text before :: .box r high scalar :: inlines, ⟨?_, ?_⟩, content⟩
          · simp only [List.flatMap_cons, Inline.html, List.append_assoc]
          · rw [content, List.length_append, List.length_append, length]
            omega

theorem writeColumnsFrom_valid {back : Bytes} {i start : Nat} (at_i : t.drop i = back)
    (inside : i ≤ t.length) (order : start ≤ i) (valid : validUtf8 back = true) :
    ∃ out, writeColumnsFrom wide t i start (runes back) = some out := by
  induction back using runes_induction generalizing i start with
  | nil =>
      obtain ⟨piece, taken⟩ := slice_some (order.trans inside) (le_refl t.length)
      exact ⟨_, congrArg (Option.map escape) taken⟩
  | rune bytes rest formed ih =>
      have length := congrArg List.length at_i
      rw [List.length_drop, List.length_append] at length
      have next : t.drop (i + bytes.length) = rest := by
        rw [← List.drop_drop, at_i, List.drop_left]
      rw [validUtf8_append formed] at valid
      rw [runes_append formed, writeColumnsFrom, (encodeUtf8_codePoint formed).2]
      split
      · obtain ⟨before, taken⟩ := slice_some order inside
        obtain ⟨after, behind⟩ := ih next (by omega) (le_refl _) valid
        rw [taken, behind]
        exact ⟨_, rfl⟩
      · exact ih next (by omega) (by omega) valid
  | error byte rest wrong read ih =>
      rw [validUtf8_error read] at valid
      cases valid

variable (error : wide runeError = false)
include error

/-- Whatever is written has the length of the text, and is the text exactly where that is valid. -/
theorem writeColumnsFrom_columned {back : Bytes} {i start : Nat} {out : Bytes}
    (at_i : t.drop i = back) (inside : i ≤ t.length)
    (written : writeColumnsFrom wide t i start (runes back) = some out) :
    ∃ inlines, Columned out start t inlines ∧ (start ≤ i →
      (inlines.flatMap Inline.content = t.drop start ↔ validUtf8 back = true)) := by
  induction back using runes_induction generalizing i start out with
  | nil =>
      obtain rfl : i = t.length := le_antisymm inside (List.drop_eq_nil_iff.mp at_i)
      obtain ⟨inlines, columned, same⟩ := columned_end written
      exact ⟨inlines, columned, fun _ => iff_of_true same rfl⟩
  | rune bytes rest formed ih =>
      obtain ⟨scalar, encoded⟩ := encodeUtf8_codePoint formed
      have length := congrArg List.length at_i
      rw [List.length_drop, List.length_append] at length
      have next : t.drop (i + bytes.length) = rest := by
        rw [← List.drop_drop, at_i, List.drop_left]
      rw [runes_append formed] at written
      rw [validUtf8_append formed]
      cases narrow : isNarrowWide wide (codePoint bytes) with
      | false =>
          rw [writeColumnsFrom, narrow] at written
          obtain ⟨inlines, columned, valid⟩ := ih next (by omega) written
          exact ⟨inlines, columned, fun order => valid (by omega)⟩
      | true =>
          obtain ⟨before, after, taken, behind, join⟩ := columned_box narrow scalar written
          obtain ⟨inlines, columned, valid⟩ := ih next (by omega) behind
          obtain ⟨all, columned, content⟩ := join inlines columned
          refine ⟨all, columned, fun _ => ?_⟩
          obtain ⟨_, _, _, whole⟩ := slice_eq taken
          have same := valid (by rw [encoded])
          rw [encoded, next] at same
          rw [content, whole, at_i, encoded, List.append_assoc, List.append_right_inj,
            List.append_right_inj, same]
  | error byte rest wrong read ih =>
      have length := congrArg List.length at_i
      rw [List.length_drop, List.length_cons] at length
      have next : t.drop (i + 1) = rest := by
        rw [← List.drop_drop, at_i]
        rfl
      have narrow : isNarrowWide wide runeError = true := by
        rw [isNarrowWide, error]
        decide
      rw [read] at written
      obtain ⟨before, after, taken, behind, join⟩ := columned_box narrow (by decide) written
      obtain ⟨inlines, columned, _⟩ := ih next (by omega) behind
      obtain ⟨all, columned, content⟩ := join inlines columned
      refine ⟨all, columned, fun _ => iff_of_false (fun same => ?_) ?_⟩
      · -- the encoding of U+FFFD would be read as three bytes
        obtain ⟨_, _, _, whole⟩ := slice_eq taken
        rw [content, whole, at_i, List.append_assoc, List.append_right_inj] at same
        have formed := (wellFormed_encodeUtf8 (by decide : IsScalar runeError)).1
        have three := decodeRune_of_wellFormed formed (inlines.flatMap Inline.content)
        rw [same, wrong] at three
        exact absurd (congrArg Prod.snd three) (by decide)
      · rw [validUtf8_error read]
        exact Bool.false_ne_true

end Columns

/-! ### Painting -/

def Painted (page : Page) (content : Bytes) : Prop :=
  ∃ (runs : List Run) (state : AnsiState) (inlines : List Inline), page.opened = state.style ∧
    page.out = runs.flatMap Run.html ++ openSpan page.opened ++ inlines.flatMap Inline.html ∧
    runs.flatMap Run.content ++ inlines.flatMap Inline.content = content

theorem painted_initial : Painted ⟨defaultANSI, [], []⟩ [] :=
  ⟨[], defaultANSI, [], by decide, rfl, rfl⟩

theorem Painted.closed {page : Page} {content : Bytes} (painted : Painted page content) :
    ∃ runs : List Run, page.out ++ closeSpan page.opened = runs.flatMap Run.html ∧
      shown (runs.flatMap Run.html) = content := by
  obtain ⟨runs, state, inlines, opened, out, rfl⟩ := painted
  refine ⟨runs ++ [⟨state, inlines⟩], ?_, ?_⟩
  · rw [out, opened, List.flatMap_append, List.flatMap_singleton, Run.html, List.append_assoc,
      List.append_assoc, List.append_assoc]
  · rw [shown_runs, List.flatMap_append, List.flatMap_singleton]
    rfl

section Painting

variable {wide : Nat → Bool}

theorem writeEvent_valid (page : Page) {event : Event} (valid : validUtf8 event.stretch = true) :
    ∃ next, writeEvent wide page event = some next := by
  cases event with
  | sgr params => exact ⟨_, rfl⟩
  | text t =>
      obtain ⟨columns, written⟩ :=
        @writeColumnsFrom_valid wide t t 0 0 rfl (Nat.zero_le _) (le_refl 0) valid
      exact ⟨_, congrArg (Option.map _) written⟩

theorem writeEvents_valid (page : Page) {events : List Event}
    (valid : ∀ event ∈ events, validUtf8 event.stretch = true) :
    ∃ last, writeEvents wide page events = some last := by
  induction events generalizing page with
  | nil => exact ⟨page, rfl⟩
  | cons event events ih =>
      rw [List.forall_mem_cons] at valid
      obtain ⟨next, written⟩ := writeEvent_valid page valid.1
      obtain ⟨last, behind⟩ := ih next valid.2
      exact ⟨last, by rw [writeEvents, written, Option.bind_some, behind]⟩

variable (error : wide runeError = false)
include error

theorem writeEvent_painted {page next : Page} {event : Event} {content : Bytes}
    (painted : Painted page content) (written : writeEvent wide page event = some next) :
    ∃ more, Painted next (content ++ more) ∧ more.length = event.stretch.length ∧
      (more = event.stretch ↔ validUtf8 event.stretch = true) := by
  obtain ⟨runs, state, inlines, opened, out, rfl⟩ := painted
  cases event with
  | sgr params =>
      obtain rfl := Option.some.inj written
      exact ⟨[], ⟨runs, state, inlines, opened, out, (List.append_nil _).symm⟩, rfl,
        iff_of_true rfl rfl⟩
  | text t =>
      obtain ⟨columns, output, rfl⟩ := Option.map_eq_some_iff.mp written
      obtain ⟨added, ⟨rfl, length⟩, same⟩ :=
        writeColumnsFrom_columned error (List.drop_zero) (Nat.zero_le _) output
      refine ⟨added.flatMap Inline.content, ?_, length, same (le_refl 0)⟩
      by_cases unchanged : page.state.style = page.opened
      · refine ⟨runs, state, inlines ++ added, unchanged.trans opened, ?_, ?_⟩
        · dsimp only
          rw [if_pos unchanged, out, List.flatMap_append, unchanged, List.append_nil,
            List.append_assoc]
        · rw [List.flatMap_append, List.append_assoc]
      · refine ⟨runs ++ [⟨state, inlines⟩], page.state, added, rfl, ?_, ?_⟩
        · dsimp only
          rw [if_neg unchanged, out, List.flatMap_append, List.flatMap_singleton, Run.html, opened]
          simp only [List.append_assoc]
        · rw [List.flatMap_append, List.flatMap_singleton]
          rfl

theorem writeEvents_painted {page last : Page} {events : List Event} {content : Bytes}
    (painted : Painted page content) (written : writeEvents wide page events = some last) :
    ∃ more, Painted last (content ++ more) ∧
      more.length = (events.flatMap Event.stretch).length ∧
      (more = events.flatMap Event.stretch ↔
        ∀ event ∈ events, validUtf8 event.stretch = true) := by
  induction events generalizing page content with
  | nil =>
      obtain rfl := Option.some.inj written
      exact ⟨[], by rwa [List.append_nil], rfl, iff_of_true rfl (by simp)⟩
  | cons event events ih =>
      obtain ⟨next, first, behind⟩ := Option.bind_eq_some_iff.mp written
      obtain ⟨more, painted, length, valid⟩ := writeEvent_painted error painted first
      obtain ⟨others, painted, total, rest⟩ := ih painted behind
      refine ⟨more ++ others, by rwa [← List.append_assoc], ?_, ?_⟩
      · rw [List.flatMap_cons, List.length_append, List.length_append, length, total]
      · rw [List.forall_mem_cons, ← valid, ← rest, List.flatMap_cons]
        exact ⟨fun same => List.append_inj same length, fun ⟨first, others⟩ => by rw [first, others]⟩

end Painting

/-! ### Both versions -/

/-- What the two versions of a mail are for: clean text, and a page that shows the same. -/
structure SameText (wide : Nat → Bool) (s : Bytes) : Prop where
  clean : IsClean (plainText s)
  stable : plainText (plainText s) = plainText s
  page : ∃ runs : List Run, htmlText wide s = some (pageStart ++ runs.flatMap Run.html ++ pageEnd) ∧
    shown (runs.flatMap Run.html) = toValid (plainText s)

theorem validUtf8_stretches {events : List Event}
    (valid : ∀ event ∈ events, validUtf8 event.stretch = true) :
    validUtf8 (events.flatMap Event.stretch) = true := by
  induction events with
  | nil => rfl
  | cons event events ih =>
      rw [List.forall_mem_cons] at valid
      rw [List.flatMap_cons, validUtf8_append_valid valid.1]
      exact ih valid.2

/-- The versions of a mail are right exactly if no stretch of its text has a wrong byte. -/
theorem sameText_iff {wide : Nat → Bool} (error : wide runeError = false) (s : Bytes) :
    SameText wide s ↔ ∀ event ∈ scanANSI s, validUtf8 event.stretch = true := by
  constructor
  · intro same
    obtain ⟨runs, written, sees⟩ := same.page
    obtain ⟨last, wrote, whole⟩ := Option.map_eq_some_iff.mp written
    obtain ⟨content, painted, length, valid⟩ := writeEvents_painted error painted_initial wrote
    obtain ⟨shownRuns, html, shows⟩ := painted.closed
    rw [List.append_left_inj, List.append_right_inj, html] at whole
    rw [← whole, shows, List.nil_append] at sees
    rcases toValid_cases (plainText s) with ⟨_, kept⟩ | ⟨_, longer⟩
    · exact valid.mp (sees.trans kept)
    · rw [← sees] at longer
      exact absurd length longer.ne'
  · intro valid
    refine ⟨plainText_clean s, plainText_plainText s, ?_⟩
    obtain ⟨last, wrote⟩ := @writeEvents_valid wide ⟨defaultANSI, [], []⟩ _ valid
    obtain ⟨content, painted, _, same⟩ := writeEvents_painted error painted_initial wrote
    obtain ⟨runs, html, shows⟩ := painted.closed
    refine ⟨runs, by rw [htmlText, wrote, Option.map_some, html], ?_⟩
    rw [shows, List.nil_append, same.mpr valid]
    rcases toValid_cases (plainText s) with ⟨_, kept⟩ | ⟨wrong, _⟩
    · exact kept.symm
    · rw [plainText, validUtf8_stretches valid] at wrong
      cases wrong

def isIdeograph (rune : Nat) : Bool := 0x4e00 ≤ rune && rune ≤ 0x9fff

theorem sameText_red : SameText isIdeograph (utf8 "\x1b[31m<中→") :=
  (sameText_iff (by decide) _).mpr (by decide)

/-- A wrong byte at the end: the rest of the text is taken from behind its end. -/
theorem not_sameText : ¬ ∀ wide : Nat → Bool, wide runeError = false → ∀ s, SameText wide s := by
  intro all
  obtain ⟨_, written, _⟩ := (all isIdeograph (by decide) [0xff]).page
  cases written

/-- Whatever the bytes of a mail are, its page is a row of runs, in which nothing of the mail
is markup, and what it shows has as many bytes as the other version. -/
theorem htmlText_runs {wide : Nat → Bool} (error : wide runeError = false) {s page : Bytes}
    (made : htmlText wide s = some page) :
    ∃ runs : List Run, page = pageStart ++ runs.flatMap Run.html ++ pageEnd ∧
      (shown (runs.flatMap Run.html)).length = (plainText s).length := by
  obtain ⟨last, wrote, rfl⟩ := Option.map_eq_some_iff.mp made
  obtain ⟨more, painted, length, _valid⟩ := writeEvents_painted error painted_initial wrote
  obtain ⟨runs, out, sees⟩ := painted.closed
  refine ⟨runs, by rw [out], ?_⟩
  rw [sees]
  exact length

/-- A wrong byte that takes the two bytes behind it for its own. -/
theorem htmlText_runs_wrong_byte :
    ∃ page, htmlText isIdeograph [0xff, 60, 60] = some page ∧
      ∃ runs : List Run, page = pageStart ++ runs.flatMap Run.html ++ pageEnd ∧
        (shown (runs.flatMap Run.html)).length = (plainText [0xff, 60, 60]).length :=
  ⟨_, rfl, @htmlText_runs isIdeograph (by decide) _ _ rfl⟩

end Pttbbs.MailSvc.Ansi
