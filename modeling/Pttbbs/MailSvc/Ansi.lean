/-
Articles in mails.

An article has ANSI sequences.  A mail has its text without them, and once more as HTML
with the colours.  Both versions come from one scan, which gives the stretches of text and
the parameters of colour sequences in their order.  The scan stands at a byte with what it
has seen of a sequence, so an article may end in the middle of one.
-/

import Pttbbs.Lib.Html
import Pttbbs.Lib.Utf8Grammar
import Pttbbs.PostSvc.Article

namespace Pttbbs.MailSvc.Ansi

open Pttbbs.Lib

/-! ### Colours -/

/-- 0-7 normal, 8-15 bright (bold). -/
def ansiPalette : Vector Bytes 16 :=
  #v[utf8 "#000000", utf8 "#800000", utf8 "#008000", utf8 "#808000",
    utf8 "#000080", utf8 "#800080", utf8 "#008080", utf8 "#c0c0c0",
    utf8 "#808080", utf8 "#ff0000", utf8 "#00ff00", utf8 "#ffff00",
    utf8 "#0000ff", utf8 "#ff00ff", utf8 "#00ffff", utf8 "#ffffff"]

/-- The attributes set by `ESC [ ... m`. -/
structure AnsiState where
  fg : Fin 8
  bg : Fin 8
  bold : Bool
  underline : Bool
  reverse : Bool

def defaultANSI : AnsiState :=
  { fg := 7, bg := 0, bold := false, underline := false, reverse := false }

def AnsiState.applyNumber (state : AnsiState) (n : Int) : AnsiState :=
  if n = 0 then defaultANSI
  else if n = 1 then { state with bold := true }
  else if n = 4 then { state with underline := true }
  else if n = 7 then { state with reverse := true }
  else if n = 22 then { state with bold := false }
  else if n = 24 then { state with underline := false }
  else if n = 27 then { state with reverse := false }
  else if colour : 30 ≤ n ∧ n ≤ 37 then { state with fg := ⟨(n - 30).toNat, by omega⟩ }
  else if n = 39 then { state with fg := defaultANSI.fg }
  else if colour : 40 ≤ n ∧ n ≤ 47 then { state with bg := ⟨(n - 40).toNat, by omega⟩ }
  else if n = 49 then { state with bg := defaultANSI.bg }
  else state

def AnsiState.applyParam (state : AnsiState) (p : Bytes) : AnsiState :=
  match if p = [] then some 0 else PostSvc.atoi? p with
  | none => state
  | some n => state.applyNumber n

def AnsiState.apply (state : AnsiState) (params : Bytes) : AnsiState :=
  if params = [] then defaultANSI else (splitOn 59 params).foldl AnsiState.applyParam state

def AnsiState.colours (state : AnsiState) : Fin 16 × Fin 16 :=
  let fg : Fin 16 := if state.bold then ⟨state.fg + 8, by omega⟩ else ⟨state.fg, by omega⟩
  let bg : Fin 16 := ⟨state.bg, by omega⟩
  if state.reverse then (bg, fg) else (fg, bg)

def AnsiState.style (state : AnsiState) : Bytes :=
  let (fg, bg) := state.colours
  joinWith (utf8 ";")
    ((if fg = 7 then [] else [utf8 "color:" ++ ansiPalette.get fg]) ++
      (if bg = 0 then [] else [utf8 "background-color:" ++ ansiPalette.get bg]) ++
      if state.underline then [utf8 "text-decoration:underline"] else [])

theorem AnsiState.style_free (state : AnsiState) : 62 ∉ state.style := by
  have palette : ∀ index, 62 ∉ ansiPalette.get index := by decide
  rw [AnsiState.style]
  generalize state.colours = colours
  intro inside
  rcases mem_joinWith inside with separator | ⟨piece, member, inside⟩
  · exact absurd separator (by decide)
  · have coloured : ∀ {name : Bytes} {index : Fin 16}, 62 ∉ name →
        62 ∉ name ++ ansiPalette.get index := fun free both =>
      (List.mem_append.mp both).elim free (palette _)
    simp only [List.mem_append] at member
    rcases member with (colour | background) | underline
    · split at colour
      · cases colour
      · obtain rfl := List.mem_singleton.mp colour
        exact coloured (by decide) inside
    · split at background
      · cases background
      · obtain rfl := List.mem_singleton.mp background
        exact coloured (by decide) inside
    · split at underline
      · obtain rfl := List.mem_singleton.mp underline
        exact absurd inside (by decide)
      · cases underline

/-! ### Scanning -/

inductive Event
  | text (stretch : Bytes)
  | sgr (params : Bytes)

/-- Where the scan stands: in text not yet given out, or in an escape sequence. -/
inductive Scan
  | text (pending : Bytes)
  | escape
  | star
  | csi (params : Bytes)

def flush (pending : Bytes) : List Event := if pending = [] then [] else [.text pending]

def isDropped (c : UInt8) : Bool := (c < 32 && c ≠ 10 && c ≠ 9) || c = 127

def scanFrom : Scan → Bytes → List Event
  | .text pending, [] => flush pending
  | .text pending, c :: rest =>
      if c = 27 then flush pending ++ scanFrom .escape rest
      else if isDropped c then flush pending ++ scanFrom (.text []) rest
      else scanFrom (.text (pending ++ [c])) rest
  | .escape, c :: rest =>
      if c = 91 then scanFrom (.csi []) rest
      else if c = 42 then scanFrom .star rest
      else scanFrom (.text []) rest
  | .star, _ :: rest => scanFrom (.text []) rest
  | .csi params, c :: rest =>
      if c < 0x40 || 0x7e < c then scanFrom (.csi (params ++ [c])) rest
      else if c = 109 then .sgr params :: scanFrom (.text []) rest
      else scanFrom (.text []) rest
  | _, [] => []

def scanANSI (s : Bytes) : List Event :=
  scanFrom (.text []) (replaceAll [carriageReturn, newline] [newline] s)

def Event.stretch : Event → Bytes
  | .text stretch => stretch
  | .sgr _ => []

def plainText (s : Bytes) : Bytes := (scanANSI s).flatMap Event.stretch

def IsClean (text : Bytes) : Prop :=
  ∀ byte ∈ text, byte ≠ 127 ∧ (32 ≤ byte ∨ byte = 9 ∨ byte = 10)

theorem isClean_of_not_dropped {c : UInt8} (kept : isDropped c = false) : IsClean [c] := by
  rw [isDropped, Bool.or_eq_false_iff, decide_eq_false_iff_not] at kept
  obtain ⟨control, delete⟩ := kept
  rintro byte member
  obtain rfl := List.mem_singleton.mp member
  refine ⟨delete, ?_⟩
  by_cases low : byte < 32
  · simp only [low, decide_true, Bool.true_and, Bool.and_eq_false_iff, decide_eq_false_iff_not,
      not_not] at control
    exact .inr control.symm
  · exact .inl (not_lt.mp low)

theorem IsClean.append {left right : Bytes} (leftClean : IsClean left) (rightClean : IsClean right) :
    IsClean (left ++ right) := fun byte member =>
  (List.mem_append.mp member).elim (leftClean byte) (rightClean byte)

theorem flush_stretch (pending : Bytes) : (flush pending).flatMap Event.stretch = pending := by
  rw [flush]
  split
  · rename_i empty
    exact empty.symm
  · exact List.append_nil pending

def Scan.pending : Scan → Bytes
  | .text pending => pending
  | _ => []

theorem scanFrom_clean {scan : Scan} (s : Bytes) (clean : IsClean scan.pending) :
    IsClean ((scanFrom scan s).flatMap Event.stretch) := by
  have nothing : IsClean [] := fun _ member => absurd member List.not_mem_nil
  induction s generalizing scan with
  | nil =>
      cases scan with
      | text pending =>
          rw [scanFrom, flush_stretch]
          exact clean
      | escape | star | csi => exact nothing
  | cons c rest ih =>
      cases scan with
      | text pending =>
          rw [scanFrom]
          split
          · rw [List.flatMap_append, flush_stretch]
            exact clean.append (ih nothing)
          · split
            · rw [List.flatMap_append, flush_stretch]
              exact clean.append (ih nothing)
            · rename_i kept
              exact ih (clean.append (isClean_of_not_dropped (Bool.eq_false_iff.mpr kept)))
      | escape =>
          rw [scanFrom]
          split_ifs <;> exact ih nothing
      | star => exact ih nothing
      | csi params =>
          rw [scanFrom]
          split_ifs <;> exact ih nothing

theorem plainText_clean (s : Bytes) : IsClean (plainText s) :=
  scanFrom_clean _ fun _ member => absurd member List.not_mem_nil

theorem scanFrom_of_clean {text : Bytes} (clean : IsClean text) (pending : Bytes) :
    scanFrom (.text pending) text = flush (pending ++ text) := by
  induction text generalizing pending with
  | nil => rw [scanFrom, List.append_nil]
  | cons c rest ih =>
      obtain ⟨delete, printable⟩ := clean c List.mem_cons_self
      have notEscape : c ≠ 27 := by
        rintro rfl
        exact absurd printable (by decide)
      have kept : isDropped c = false := by
        rw [isDropped, decide_eq_false delete, Bool.or_false]
        rcases printable with high | rfl | rfl
        · rw [decide_eq_false (not_lt.mpr high), Bool.false_and, Bool.false_and]
        · rfl
        · rfl
      rw [scanFrom, if_neg notEscape, kept, if_neg Bool.false_ne_true,
        ih (fun byte member => clean byte (List.mem_cons_of_mem c member)), List.append_assoc,
        List.singleton_append]

theorem plainText_plainText (s : Bytes) : plainText (plainText s) = plainText s := by
  have clean := plainText_clean s
  have noReturn : carriageReturn ∉ plainText s := fun member =>
    absurd (clean _ member).2 (by decide)
  rw [plainText, scanANSI, replaceAll_of_not_mem noReturn, scanFrom_of_clean clean,
    List.nil_append, flush_stretch]

/-! ### The HTML version -/

/-- `isNarrowWide`; `wide` tells the characters of East Asian wide and fullwidth kind. -/
def isNarrowWide (wide : Nat → Bool) (r : Nat) : Bool := decide (0x80 ≤ r) && !wide r

/-- `t[low:high]`, which panics outside of the bounds. -/
def slice (t : Bytes) (low high : Nat) : Option Bytes :=
  if low ≤ high ∧ high ≤ t.length then some ((t.take high).drop low) else none

def wideSpan : Bytes := utf8 "<span style=\"display:inline-block;width:2ch\">"

def spanEnd : Bytes := utf8 "</span>"

def writeColumnsFrom (wide : Nat → Bool) (t : Bytes) :
    Nat → Nat → List (Nat × Nat) → Option Bytes
  | _, start, [] => (slice t start t.length).map Html.escape
  | i, start, (r, size) :: runes =>
      if isNarrowWide wide r then
        match slice t start i,
            writeColumnsFrom wide t (i + size) (i + (encodeUtf8 r).length) runes with
        | some before, some after =>
            some (Html.escape before ++ wideSpan ++ encodeUtf8 r ++ spanEnd ++ after)
        | _, _ => none
      else writeColumnsFrom wide t (i + size) start runes

def writeColumns (wide : Nat → Bool) (t : Bytes) : Option Bytes :=
  writeColumnsFrom wide t 0 0 (runes t)

structure Page where
  state : AnsiState
  opened : Bytes
  out : Bytes

def openSpan (style : Bytes) : Bytes :=
  if style = [] then [] else utf8 "<span style=\"" ++ style ++ utf8 "\">"

def closeSpan (style : Bytes) : Bytes := if style = [] then [] else spanEnd

def writeEvent (wide : Nat → Bool) (page : Page) : Event → Option Page
  | .sgr params => some { page with state := page.state.apply params }
  | .text t =>
      let style := page.state.style
      let tags := if style = page.opened then [] else closeSpan page.opened ++ openSpan style
      (writeColumns wide t).map fun columns =>
        { page with opened := style, out := page.out ++ tags ++ columns }

def writeEvents (wide : Nat → Bool) : Page → List Event → Option Page
  | page, [] => some page
  | page, event :: events =>
      (writeEvent wide page event).bind fun next => writeEvents wide next events

def pageStart : Bytes := utf8 "<!DOCTYPE html>
<html><head><meta http-equiv=\"Content-Type\" content=\"text/html; charset=UTF-8\"></head>
<body style=\"margin:0;padding:0\">
<table width=\"100%\" cellpadding=\"12\" cellspacing=\"0\" border=\"0\" bgcolor=\"#000000\" style=\"background-color:#000000\"><tr><td>
<pre style=\"margin:0;color:#c0c0c0;background-color:#000000;font-family:MingLiU,'細明體','Noto Sans Mono CJK TC','Sarasa Mono TC','WenQuanYi Zen Hei Mono',monospace;font-size:15px;line-height:1;white-space:pre-wrap;word-break:break-all\">"

def pageEnd : Bytes := utf8 "</pre>\n</td></tr></table>\n</body></html>\n"

/-- `none` where the code panics. -/
def htmlText (wide : Nat → Bool) (s : Bytes) : Option Bytes :=
  (writeEvents wide ⟨defaultANSI, [], []⟩ (scanANSI s)).map fun page =>
    pageStart ++ (page.out ++ closeSpan page.opened) ++ pageEnd

end Pttbbs.MailSvc.Ansi
