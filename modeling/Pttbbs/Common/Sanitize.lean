/-
Text cleaned in place of control bytes and broken characters.

`mbs_sanitize` is compiled for one of two decoders.  The text is the memory from `str` on; what is
read of it ends in front of the first NUL or after `maxlen` bytes.
-/

import Mathlib.Logic.Function.Basic
import Pttbbs.Common.Big5Ctx
import Pttbbs.Lib.CharFilter

namespace Pttbbs.Common.Multibyte

open Pttbbs.Lib

/-- The functions of `mb_ctx`; `text` is the buffer up to `len`. -/
structure MbDecoder (Ctx : Type) where
  init : Ctx → Ctx
  addByte : Ctx → UInt8 → Bool × Ctx
  pending : Ctx → Nat
  isError : Ctx → Bool
  text : Ctx → Bytes

def utf8Mb : MbDecoder Utf8Ctx where
  init := utf8Init
  addByte := utf8AddByte
  pending := utf8Pending
  isError := utf8IsError
  text := utf8ToMb

def big5Mb : MbDecoder Big5Ctx where
  init := big5Init
  addByte := big5AddByte
  pending := big5Pending
  isError := big5IsError
  text := big5ToMb

abbrev Memory : Type := Nat → UInt8

def memcpy (str : Memory) (dest : Nat) (bytes : Bytes) : Memory := fun index =>
  if dest ≤ index ∧ index < dest + bytes.length then bytes.getD (index - dest) 0 else str index

structure Sanitizing (Ctx : Type) where
  str : Memory
  len : Nat
  ctx : Ctx

section Code

variable {Ctx : Type} (mb : MbDecoder Ctx)

def Sanitizing.put (st : Sanitizing Ctx) (bytes : Bytes) (ctx : Ctx) : Sanitizing Ctx :=
  { str := memcpy st.str st.len bytes, len := st.len + bytes.length, ctx := ctx }

def Sanitizing.complete (st : Sanitizing Ctx) (ctx : Ctx) : Sanitizing Ctx :=
  st.put (mb.text ctx) (mb.init ctx)

def sanitizeByte (st : Sanitizing Ctx) (i : Nat) : Sanitizing Ctx :=
  let c := st.str i
  if mb.pending st.ctx ≠ 0 then
    let added := mb.addByte st.ctx c
    if added.1 then st.complete mb added.2
    else if mb.pending added.2 = 0 then
      let ctx := mb.init added.2
      if printable c then st.put [c] ctx
      else if 0x80 ≤ c then
        let again := mb.addByte ctx c
        if again.1 then st.complete mb again.2 else { st with ctx := again.2 }
      else { st with ctx := ctx }
    else { st with ctx := added.2 }
  else if printable c then st.put [c] st.ctx
  else if 0x80 ≤ c then
    let added := mb.addByte st.ctx c
    if added.1 then st.complete mb added.2
    else if mb.isError added.2 then
      let again := mb.addByte (mb.init added.2) c
      if again.1 then st.complete mb again.2 else { st with ctx := again.2 }
    else { st with ctx := added.2 }
  else { st with ctx := mb.init st.ctx }

def sanitizeFrom : Nat → Nat → Sanitizing Ctx → Sanitizing Ctx
  | 0, _, st => st
  | left + 1, i, st =>
      if st.str i = 0 then st else sanitizeFrom left (i + 1) (sanitizeByte mb st i)

def sanitizeStart (ctx : Ctx) (str : Memory) : Sanitizing Ctx :=
  { str := str, len := 0, ctx := mb.init ctx }

/-- `mbs_sanitize`, with the context as it lies on the stack. -/
def mbsSanitize (ctx : Ctx) (str : Memory) (maxlen : Int) : Memory :=
  if maxlen ≤ 0 then str
  else
    let st := sanitizeFrom mb maxlen.toNat 0 (sanitizeStart mb ctx str)
    if st.len < maxlen then Function.update st.str st.len 0 else st.str

end Code

/-- The bytes in front of the first NUL, of at most so many from an index on. -/
def textFrom (str : Memory) : Nat → Nat → Bytes
  | 0, _ => []
  | left + 1, i => if str i = 0 then [] else str i :: textFrom str left (i + 1)

def textOf (str : Memory) (maxlen : Int) : Bytes := textFrom str maxlen.toNat 0

def bytesRead (str : Memory) (maxlen : Int) : Nat :=
  min ((textOf str maxlen).length + 1) maxlen.toNat

/-! ### What is asked of it -/

/-- `mb_add_byte` is ready with a character after the last of these bytes and not before. -/
def Accepts {Ctx : Type} (mb : MbDecoder Ctx) : Ctx → Bytes → Prop
  | _, [] => False
  | ctx, [byte] => (mb.addByte ctx byte).1 = true
  | ctx, byte :: next :: rest =>
      (mb.addByte ctx byte).1 = false ∧ mb.pending (mb.addByte ctx byte).2 ≠ 0 ∧
        Accepts mb (mb.addByte ctx byte).2 (next :: rest)

structure SanitizesWell {Ctx : Type} (mb : MbDecoder Ctx) (grammar : CharGrammar) (ctx : Ctx)
    (str : Memory) (maxlen : Int) : Prop where
  formed : ∃ chars : List Bytes,
    textOf (mbsSanitize mb ctx str maxlen) maxlen = chars.flatten ∧
      ∀ char ∈ chars, grammar.Good char ∧ Accepts mb (mb.init ctx) char
  sublist : (textOf (mbsSanitize mb ctx str maxlen) maxlen).Sublist (textOf str maxlen)
  /-- After any number of rounds nothing is written behind the bytes read so far. -/
  within : ∀ rounds index, (textFrom str rounds 0).length ≤ index →
    (sanitizeFrom mb rounds 0 (sanitizeStart mb ctx str)).str index = str index
  withinAll : ∀ index, bytesRead str maxlen ≤ index →
    mbsSanitize mb ctx str maxlen index = str index
  again : mbsSanitize mb ctx (mbsSanitize mb ctx str maxlen) maxlen = mbsSanitize mb ctx str maxlen

/-! ### Decoders and their grammars -/

section Decoding

variable {Ctx : Type}

inductive Outcome (mb : MbDecoder Ctx) (grammar : CharGrammar) (Holding : Ctx → Bytes → Prop)
    (held : Bytes) (byte : UInt8) : Bool × Ctx → Prop where
  | more {ctx : Ctx} (opens : grammar.isOpen (held ++ [byte]) = true)
      (quiet : mb.isError ctx = false) (holding : Holding ctx (held ++ [byte])) :
      Outcome mb grammar Holding held byte (false, ctx)
  | last {ctx : Ctx} (formed : grammar.formed (held ++ [byte]) = true)
      (text : mb.text ctx = held ++ [byte]) (fresh : Holding (mb.init ctx) []) :
      Outcome mb grammar Holding held byte (true, ctx)
  | wrong {ctx : Ctx} (closed : grammar.isOpen (held ++ [byte]) = false)
      (illFormed : grammar.formed (held ++ [byte]) = false) (holding : Holding ctx []) :
      Outcome mb grammar Holding held byte (false, ctx)

/-- A decoder follows a grammar; `Holding` says which bytes a context has taken. -/
structure Decodes (mb : MbDecoder Ctx) (grammar : CharGrammar) (Holding : Ctx → Bytes → Prop) :
    Prop where
  init : ∀ {ctx held}, Holding ctx held → Holding (mb.init ctx) []
  pending : ∀ {ctx held}, Holding ctx held → (mb.pending ctx ≠ 0 ↔ held ≠ [])
  takes : ∀ {ctx held}, Holding ctx held → ∀ byte,
    Outcome mb grammar Holding held byte (mb.addByte ctx byte)

def cells (str : Memory) (start count : Nat) : Bytes := (List.range' start count).map str

structure Cleaned (Holding : Ctx → Bytes → Prop) (original : Memory) (i : Nat)
    (st : Sanitizing Ctx) (chars : List Bytes) (held : Bytes) : Prop where
  holding : Holding st.ctx held
  written : cells st.str 0 st.len = chars.flatten
  room : st.len + held.length ≤ i
  behind : ∀ index, i ≤ index → st.str index = original index

end Decoding

/-! ### Memory -/

theorem cells_congr {first second : Memory} {start count : Nat}
    (same : ∀ index, start ≤ index → index < start + count → first index = second index) :
    cells first start count = cells second start count := by
  refine List.map_congr_left fun index member => ?_
  obtain ⟨low, high⟩ := List.mem_range'_1.mp member
  exact same index low high

theorem cells_memcpy (str : Memory) (dest : Nat) (bytes : Bytes) :
    cells (memcpy str dest bytes) dest bytes.length = bytes := by
  refine List.ext_getElem (by rw [cells, List.length_map, List.length_range']) ?_
  intro place inside within
  simp only [cells, List.getElem_map, List.getElem_range', Nat.one_mul]
  rw [memcpy, if_pos ⟨by omega, by omega⟩, Nat.add_sub_cancel_left, List.getD_eq_getElem _ _ within]

theorem cells_append (str : Memory) (start first second : Nat) :
    cells str start (first + second) = cells str start first ++ cells str (start + first) second := by
  rw [cells, cells, cells, ← List.map_append]
  congr 1
  have joined := @List.range'_append start first second 1
  rw [Nat.one_mul] at joined
  exact joined.symm

theorem cells_put (str : Memory) (len : Nat) (bytes : Bytes) :
    cells (memcpy str len bytes) 0 (len + bytes.length) = cells str 0 len ++ bytes := by
  have front : cells (memcpy str len bytes) 0 len = cells str 0 len := by
    refine cells_congr fun index _ below => ?_
    rw [memcpy, if_neg (by omega)]
  rw [cells_append, Nat.zero_add, front, cells_memcpy]

theorem textFrom_length_le (str : Memory) (left i : Nat) : (textFrom str left i).length ≤ left := by
  induction left generalizing i with
  | zero => exact Nat.zero_le _
  | succ left ih =>
      rw [textFrom]
      split
      · exact Nat.zero_le _
      · exact Nat.succ_le_succ (ih (i + 1))

theorem zero_not_mem_textFrom (str : Memory) (left i : Nat) : 0 ∉ textFrom str left i := by
  induction left generalizing i with
  | zero => exact List.not_mem_nil
  | succ left ih =>
      rw [textFrom]
      split
      · exact List.not_mem_nil
      · rename_i nonzero
        intro member
        rcases List.mem_cons.mp member with here | later
        · exact nonzero here.symm
        · exact ih (i + 1) later

theorem textFrom_of_cells {str : Memory} {bytes : Bytes} {left i : Nat} (plain : 0 ∉ bytes)
    (stored : cells str i bytes.length = bytes) (fits : bytes.length ≤ left)
    (ended : bytes.length < left → str (i + bytes.length) = 0) : textFrom str left i = bytes := by
  induction bytes generalizing left i with
  | nil =>
      cases left with
      | zero => rfl
      | succ left =>
          have zero : str i = 0 := ended (Nat.succ_pos left)
          rw [textFrom, if_pos zero]
  | cons byte bytes ih =>
      cases left with
      | zero => cases fits
      | succ left =>
          rw [cells, List.length_cons, List.range'_succ, List.map_cons] at stored
          obtain ⟨here, rest⟩ := List.cons.inj stored
          have nonzero : str i ≠ 0 := by
            intro zero
            exact plain (List.mem_cons.mpr (Or.inl (zero.symm.trans here)))
          rw [textFrom, if_neg nonzero, here]
          congr 1
          refine ih (fun member => plain (List.mem_cons_of_mem _ member)) rest
            (Nat.le_of_succ_le_succ fits) fun short => ?_
          have last := ended (Nat.succ_lt_succ short)
          rw [List.length_cons] at last
          rw [← last]
          congr 1
          omega

/-! ### The loop -/

section Loop

variable {Ctx : Type} {mb : MbDecoder Ctx} {grammar : CharGrammar}
  {Holding : Ctx → Bytes → Prop} {original : Memory} {i : Nat} {st : Sanitizing Ctx}
  {chars : List Bytes} {held : Bytes}

theorem Cleaned.hold (cleaned : Cleaned Holding original i st chars held) {ctx : Ctx}
    {now : Bytes} (holding : Holding ctx now) (room : now.length ≤ held.length + 1) :
    Cleaned Holding original (i + 1) { st with ctx := ctx } (chars ++ []) now where
  holding := holding
  written := by rw [List.append_nil]; exact cleaned.written
  room := by
    have before := cleaned.room
    change st.len + now.length ≤ i + 1
    omega
  behind := fun index below => cleaned.behind index (by omega)

theorem Cleaned.emit (cleaned : Cleaned Holding original i st chars held) {ctx : Ctx}
    {char : Bytes} (holding : Holding ctx []) (room : char.length ≤ held.length + 1) :
    Cleaned Holding original (i + 1) (st.put char ctx) (chars ++ [char]) [] where
  holding := holding
  written := by
    rw [List.flatten_append, List.flatten_singleton, ← cleaned.written]
    exact cells_put st.str st.len char
  room := by
    have before := cleaned.room
    change st.len + char.length + 0 ≤ i + 1
    omega
  behind := fun index below => by
    have before := cleaned.room
    have same := cleaned.behind index (by omega)
    change memcpy st.str st.len char index = original index
    rw [memcpy, if_neg (by omega), same]

section

variable (decodes : Decodes mb grammar Holding)

include decodes

theorem Cleaned.begin (cleaned : Cleaned Holding original i st chars held) {ctx : Ctx}
    (fresh : Holding ctx [])
    {byte : UInt8} (high : 0x80 ≤ byte) :
    (mb.addByte ctx byte).1 = false ∧
      Cleaned Holding original (i + 1) { st with ctx := (mb.addByte ctx byte).2 }
        (chars ++ (grammar.alone byte).1) (grammar.alone byte).2 := by
  have hidden : ¬ printable byte = true := fun shown =>
    absurd (printable_ascii shown) (UInt8.not_lt.mpr high)
  have outcome := decodes.takes fresh byte
  generalize mb.addByte ctx byte = added at outcome
  cases outcome with
  | more opens quiet holding =>
      refine ⟨rfl, ?_⟩
      rw [CharGrammar.alone_open opens]
      exact cleaned.hold holding (Nat.succ_le_succ (Nat.zero_le _))
  | last formed text fresh =>
      exact absurd ((grammar.single byte).mp formed) (UInt8.not_lt.mpr high)
  | wrong closed illFormed holding =>
      refine ⟨rfl, ?_⟩
      rw [CharGrammar.alone_other closed hidden]
      exact cleaned.hold holding (Nat.zero_le _)

theorem Cleaned.pending (cleaned : Cleaned Holding original i st chars held) :
    mb.pending st.ctx ≠ 0 ↔ held ≠ [] :=
  decodes.pending cleaned.holding

theorem Cleaned.inside (cleaned : Cleaned Holding original i st chars held) (some : held ≠ []) :
    Cleaned Holding original (i + 1) (sanitizeByte mb st i)
      (chars ++ (grammar.cleanByte held (st.str i)).1) (grammar.cleanByte held (st.str i)).2 := by
  have long : (held ++ [st.str i]).length ≤ held.length + 1 := by
    rw [List.length_append, List.length_singleton]
  unfold sanitizeByte
  dsimp only
  rw [if_pos ((cleaned.pending decodes).mpr some)]
  have outcome := decodes.takes cleaned.holding (st.str i)
  generalize mb.addByte st.ctx (st.str i) = added at outcome
  cases outcome with
  | more opens quiet holding =>
      have waits := (decodes.pending holding).mpr (List.append_ne_nil_of_left_ne_nil some _)
      rw [if_neg Bool.false_ne_true, if_neg waits, CharGrammar.cleanByte_open opens]
      exact cleaned.hold holding long
  | last formed text fresh =>
      rw [if_pos rfl, CharGrammar.cleanByte_formed some formed, Sanitizing.complete, text]
      exact cleaned.emit fresh long
  | @wrong ctx closed illFormed holding =>
      have stopped : mb.pending ctx = 0 := not_ne_iff.mp fun waits =>
        (decodes.pending holding).mp waits rfl
      have fresh := decodes.init holding
      rw [if_neg Bool.false_ne_true, if_pos stopped,
        CharGrammar.cleanByte_wrong closed illFormed]
      by_cases shown : printable (st.str i) = true
      · rw [if_pos shown, CharGrammar.alone_printable shown]
        exact cleaned.emit fresh (Nat.succ_le_succ (Nat.zero_le _))
      · rw [if_neg shown]
        by_cases high : 0x80 ≤ st.str i
        · obtain ⟨unready, next⟩ := cleaned.begin decodes fresh high
          rw [if_pos high, unready, if_neg Bool.false_ne_true]
          exact next
        · have ascii := (grammar.single (st.str i)).mpr (UInt8.not_le.mp high)
          rw [if_neg high, CharGrammar.alone_other (grammar.closed _ ascii) shown]
          exact cleaned.hold fresh (Nat.zero_le _)

theorem Cleaned.outside (cleaned : Cleaned Holding original i st chars []) :
    Cleaned Holding original (i + 1) (sanitizeByte mb st i)
      (chars ++ (grammar.cleanByte [] (st.str i)).1) (grammar.cleanByte [] (st.str i)).2 := by
  unfold sanitizeByte
  dsimp only
  rw [if_neg fun waits => (cleaned.pending decodes).mp waits rfl, CharGrammar.cleanByte_nil]
  by_cases shown : printable (st.str i) = true
  · rw [if_pos shown, CharGrammar.alone_printable shown]
    exact cleaned.emit cleaned.holding (Nat.le_refl _)
  · rw [if_neg shown]
    by_cases high : 0x80 ≤ st.str i
    · obtain ⟨unready, next⟩ := cleaned.begin decodes cleaned.holding high
      rw [if_pos high, unready, if_neg Bool.false_ne_true]
      by_cases failed : mb.isError (mb.addByte st.ctx (st.str i)).2 = true
      · -- The byte is tried again by a context that has been reset, which comes to the same.
        obtain ⟨unreadyAgain, again⟩ := cleaned.begin decodes (decodes.init next.holding) high
        rw [if_pos failed, unreadyAgain, if_neg Bool.false_ne_true]
        exact again
      · rw [if_neg failed]
        exact next
    · have ascii := (grammar.single (st.str i)).mpr (UInt8.not_le.mp high)
      rw [if_neg high, CharGrammar.alone_other (grammar.closed _ ascii) shown]
      exact cleaned.hold (decodes.init cleaned.holding) (Nat.zero_le _)

theorem Cleaned.step (cleaned : Cleaned Holding original i st chars held) :
    Cleaned Holding original (i + 1) (sanitizeByte mb st i)
      (chars ++ (grammar.cleanByte held (original i)).1)
      (grammar.cleanByte held (original i)).2 := by
  rw [← cleaned.behind i (Nat.le_refl i)]
  by_cases some : held ≠ []
  · exact cleaned.inside decodes some
  · rw [not_not] at some
    subst some
    exact cleaned.outside decodes

theorem Cleaned.run (left : Nat)
    (cleaned : Cleaned Holding original i st chars held) :
    ∃ rest, Cleaned Holding original (i + (textFrom original left i).length)
      (sanitizeFrom mb left i st) (chars ++ grammar.cleanFrom held (textFrom original left i))
      rest := by
  induction left generalizing i st chars held with
  | zero =>
      refine ⟨held, ?_⟩
      rw [textFrom, sanitizeFrom, CharGrammar.cleanFrom, List.append_nil]
      exact cleaned
  | succ left ih =>
      rw [textFrom, sanitizeFrom, cleaned.behind i (Nat.le_refl i)]
      by_cases ended : original i = 0
      · refine ⟨held, ?_⟩
        rw [if_pos ended, if_pos ended, CharGrammar.cleanFrom, List.append_nil]
        exact cleaned
      · obtain ⟨rest, done⟩ := ih (cleaned.step decodes)
        refine ⟨rest, ?_⟩
        rw [if_neg ended, if_neg ended, CharGrammar.cleanFrom, ← List.append_assoc,
          List.length_cons, Nat.add_comm _ 1, ← Nat.add_assoc]
        exact done

theorem accepts_of_formed {ctx : Ctx} {more : Bytes}
    (holding : Holding ctx held) (left : more ≠ [])
    (formed : grammar.formed (held ++ more) = true) : Accepts mb ctx more := by
  induction more generalizing ctx held with
  | nil => contradiction
  | cons byte more ih =>
      have outcome := decodes.takes holding byte
      generalize result : mb.addByte ctx byte = added at outcome
      cases more with
      | nil =>
          rw [Accepts, result]
          cases outcome with
          | more opens =>
              rw [grammar.closed _ formed] at opens
              cases opens
          | last => rfl
          | wrong closed illFormed =>
              rw [formed] at illFormed
              cases illFormed
      | cons next more =>
          have begun := List.append_ne_nil_of_right_ne_nil held (List.cons_ne_nil byte [])
          rw [List.append_cons] at formed
          have opens := CharGrammar.open_of_formed begun (List.cons_ne_nil _ _) formed
          rw [Accepts, result]
          cases outcome with
          | more _ quiet holding =>
              exact ⟨rfl, (decodes.pending holding).mpr begun,
                ih holding (List.cons_ne_nil _ _) formed⟩
          | last whole =>
              rw [grammar.closed _ whole] at opens
              cases opens
          | wrong closed =>
              rw [opens] at closed
              cases closed

theorem accepts_of_good {ctx : Ctx}
    (fresh : Holding ctx []) {char : Bytes} (good : grammar.Good char) : Accepts mb ctx char := by
  rcases good with ⟨byte, rfl, shown⟩ | ⟨long, formed⟩
  · exact accepts_of_formed decodes fresh (List.cons_ne_nil _ _)
      ((grammar.single byte).mpr (printable_ascii shown))
  · refine accepts_of_formed decodes fresh ?_ formed
    intro empty
    rw [empty] at long
    cases long

end

end Loop

/-! ### The whole call -/

section Call

variable {Ctx : Type} {mb : MbDecoder Ctx} {grammar : CharGrammar}
  {Holding : Ctx → Bytes → Prop} {ctx : Ctx} {str : Memory} {maxlen : Int}

def cleanedText (grammar : CharGrammar) (str : Memory) (maxlen : Int) : Bytes :=
  (grammar.cleanFrom [] (textOf str maxlen)).flatten

structure Leaves (str : Memory) (maxlen : Int) (out : Bytes) (after : Memory) : Prop where
  stored : cells after 0 out.length = out
  ended : (out.length : Int) < maxlen → after out.length = 0
  rest : ∀ index, (textOf str maxlen).length ≤ index →
    ((out.length : Int) < maxlen → index ≠ out.length) → after index = str index

theorem cleanedText_sublist : (cleanedText grammar str maxlen).Sublist (textOf str maxlen) :=
  CharGrammar.cleanFrom_sublist [] _

theorem cleaned_start (fresh : Holding (mb.init ctx) []) :
    Cleaned Holding str 0 (sanitizeStart mb ctx str) [] [] where
  holding := fresh
  written := rfl
  room := Nat.le_refl 0
  behind := fun _ _ => rfl

theorem mbsSanitize_leaves (decodes : Decodes mb grammar Holding)
    (fresh : Holding (mb.init ctx) []) :
    Leaves str maxlen (cleanedText grammar str maxlen) (mbsSanitize mb ctx str maxlen) := by
  have start : Cleaned Holding str 0 (sanitizeStart mb ctx str) [] [] := cleaned_start fresh
  obtain ⟨held, done⟩ := start.run decodes maxlen.toNat
  rw [Nat.zero_add, List.nil_append] at done
  have written := done.written
  have count := congrArg List.length written
  rw [cells, List.length_map, List.length_range'] at count
  change _ = (cleanedText grammar str maxlen).length at count
  rw [mbsSanitize]
  by_cases none : maxlen ≤ 0
  · have empty : cleanedText grammar str maxlen = [] := by
      rw [cleanedText, textOf, Int.toNat_eq_zero.mpr none]
      rfl
    rw [if_pos none, empty]
    exact
      { stored := rfl
        ended := fun some => absurd some (not_lt.mpr none)
        rest := fun _ _ _ => rfl }
  · rw [if_neg none]
    dsimp only
    rw [count] at written ⊢
    have front : (cleanedText grammar str maxlen).length ≤ (textOf str maxlen).length :=
      cleanedText_sublist.length_le
    by_cases short : ((cleanedText grammar str maxlen).length : Int) < maxlen
    · rw [if_pos short]
      constructor
      · refine Eq.trans (cells_congr fun index _ below => ?_) written
        rw [Function.update_of_ne (by omega)]
      · intro _
        rw [Function.update_self]
      · intro index behind other
        rw [Function.update_of_ne (other short)]
        exact done.behind index behind
    · rw [if_neg short]
      exact
        { stored := written
          ended := fun some => absurd some short
          rest := fun index behind _ => done.behind index behind }

theorem Leaves.textOf_eq {out : Bytes} {after : Memory} (leaves : Leaves str maxlen out after)
    (front : out.Sublist (textOf str maxlen)) : textOf after maxlen = out := by
  have inside : out.length ≤ maxlen.toNat :=
    front.length_le.trans (textFrom_length_le str maxlen.toNat 0)
  refine textFrom_of_cells ?_ leaves.stored inside fun short => ?_
  · exact fun member => zero_not_mem_textFrom str maxlen.toNat 0 (front.subset member)
  · rw [Nat.zero_add]
    exact leaves.ended (by omega)

theorem Leaves.unique {out : Bytes} {after again : Memory} (leaves : Leaves str maxlen out after)
    (front : out.Sublist (textOf str maxlen)) (twice : Leaves after maxlen out again) :
    again = after := by
  have text := leaves.textOf_eq front
  funext index
  by_cases inside : index < out.length
  · have same := twice.stored.trans leaves.stored.symm
    have cell := congrArg (fun bytes : Bytes => bytes[index]?) same
    simp only [cells, List.getElem?_map, List.getElem?_range' inside, Option.map_some] at cell
    have equal := Option.some.inj cell
    rw [Nat.zero_add, Nat.one_mul] at equal
    exact equal
  · by_cases last : (out.length : Int) < maxlen ∧ index = out.length
    · rw [last.2, twice.ended last.1, leaves.ended last.1]
    · refine twice.rest index (by rw [text]; omega) fun short here => last ⟨short, here⟩

theorem sanitizesWell (decodes : Decodes mb grammar Holding) (fresh : Holding (mb.init ctx) []) :
    SanitizesWell mb grammar ctx str maxlen := by
  have leaves := @mbsSanitize_leaves _ _ _ _ ctx str maxlen decodes fresh
  have front : (cleanedText grammar str maxlen).Sublist (textOf str maxlen) := cleanedText_sublist
  have text := leaves.textOf_eq front
  constructor
  · refine ⟨grammar.cleanFrom [] (textOf str maxlen), text, fun char member => ?_⟩
    have good := CharGrammar.cleanFrom_good member
    exact ⟨good, accepts_of_good decodes fresh good⟩
  · rw [text]
    exact front
  · intro rounds index behind
    have start : Cleaned Holding str 0 (sanitizeStart mb ctx str) [] [] := cleaned_start fresh
    obtain ⟨held, done⟩ := start.run decodes rounds
    exact done.behind index (by omega)
  · intro index behind
    have inside := textFrom_length_le str maxlen.toNat 0
    have shorter := front.length_le
    rw [bytesRead] at behind
    unfold textOf at behind shorter
    exact leaves.rest index (by unfold textOf; omega) fun short here => by omega
  · refine leaves.unique front ?_
    have twice := @mbsSanitize_leaves _ _ _ _ ctx (mbsSanitize mb ctx str maxlen) maxlen
      decodes fresh
    have same : cleanedText grammar (mbsSanitize mb ctx str maxlen) maxlen =
        cleanedText grammar str maxlen := by
      rw [cleanedText, text, cleanedText,
        CharGrammar.cleanFrom_flatten fun char member => CharGrammar.cleanFrom_good member]
    rw [same] at twice
    exact twice

end Call

/-! ### The two builds -/

def utf8Grammar : CharGrammar where
  isOpen := isOpen
  formed := wellFormed
  single := fun byte => by
    rw [wellFormed, inRange_iff, UInt8.lt_iff_toNat_lt]
    exact ⟨fun both => Nat.lt_succ_of_le both.2, fun low => ⟨Nat.zero_le _, Nat.le_of_lt_succ low⟩⟩
  closed := fun _ formed => not_isOpen_of_wellFormed formed
  openFront := fun _ _ some opens => (isOpen_concat some opens).1
  formedFront := fun _ _ some formed => (wellFormed_concat some formed).1

theorem utf8Mb_pending {ctx : Utf8Ctx} {held : Bytes} (awaits : Awaits ctx held) :
    utf8Pending ctx ≠ 0 ↔ held ≠ [] := by
  cases awaits with
  | idle _ none =>
      rw [utf8Pending, none, if_neg (by omega)]
      exact iff_of_false (fun pending => pending rfl) fun some => some rfl
  | inside _ begun lead count =>
      cases held with
      | nil => cases begun
      | cons first rest =>
          have short := ((isOpen_cons first rest).mp begun).2.2
          rw [List.headD_cons] at lead
          rw [List.length_cons] at count
          rw [utf8Pending, if_pos (by omega)]
          exact iff_of_true (by omega) (List.cons_ne_nil _ _)

theorem utf8Mb_decodes : Decodes utf8Mb utf8Grammar Awaits where
  init := fun awaits => awaits_utf8Init awaits.size
  pending := utf8Mb_pending
  takes := by
    intro ctx held awaits byte
    change Outcome utf8Mb utf8Grammar Awaits held byte (utf8AddByte ctx byte)
    have takes := utf8AddByte_takes awaits byte
    generalize utf8AddByte ctx byte = added at takes
    cases takes with
    | more opens quiet awaits => exact .more opens quiet awaits
    | last formed holds => exact .last formed holds.stored (awaits_utf8Init holds.size)
    | wrong closed illFormed reports awaits => exact .wrong closed illFormed awaits

def big5Lead (byte : UInt8) : Bool := !(byte < 0x80) && !(byte = 0x80 ∨ byte = 0xFF)

def big5Grammar : CharGrammar where
  isOpen
    | [lead] => big5Lead lead
    | _ => false
  formed
    | [byte] => byte < 0x80
    | [lead, trail] => big5Lead lead && !(trail < 0x40 ∨ trail = 0xFF)
    | _ => false
  single := fun _ => decide_eq_true_iff
  closed := by
    intro bytes formed
    match bytes, formed with
    | [byte], formed =>
        rw [Bool.eq_false_iff]
        intro lead
        simp only [big5Lead, Bool.and_eq_true, Bool.not_eq_true', decide_eq_false_iff_not] at lead
        exact lead.1 (of_decide_eq_true formed)
    | [_, _], _ => rfl
  openFront := by
    intro held byte some opens
    match held, some, opens with
    | [_], _, opens => cases opens
    | _ :: _ :: _, _, opens => cases opens
  formedFront := by
    intro held byte some formed
    match held, some, formed with
    | [_], _, formed => exact (Bool.and_eq_true_iff.mp formed).1
    | _ :: _ :: rest, _, formed => cases rest <;> cases formed

inductive Big5Awaits (ctx : Big5Ctx) : Bytes → Prop where
  | idle (size : ctx.buf.length = 3) (none : ctx.need = 0) : Big5Awaits ctx []
  | inside {lead : UInt8} (size : ctx.buf.length = 3) (first : big5Lead lead = true)
      (need : ctx.need = 2) (got : ctx.got = 1) (stored : ctx.buf.getD 0 0 = lead) :
      Big5Awaits ctx [lead]

theorem Big5Awaits.size {ctx : Big5Ctx} {held : Bytes} (awaits : Big5Awaits ctx held) :
    ctx.buf.length = 3 := by
  cases awaits with
  | idle size => exact size
  | inside size => exact size

theorem big5Awaits_init {ctx : Big5Ctx} (size : ctx.buf.length = 3) :
    Big5Awaits (big5Init ctx) [] :=
  .idle (by rw [big5Init, List.length_set, size]) rfl

theorem big5Awaits_error {ctx : Big5Ctx} (size : ctx.buf.length = 3) :
    Big5Awaits (big5Error ctx) [] :=
  .idle (by rw [big5Error, List.length_set, List.length_set, size]) rfl

theorem big5AddByte_idle {ctx : Big5Ctx} (byte : UInt8) (size : ctx.buf.length = 3)
    (none : ctx.need = 0) :
    Outcome big5Mb big5Grammar Big5Awaits [] byte (big5AddByte ctx byte) := by
  have notReady : big5IsReady ctx = false := by
    rw [big5IsReady, none]
    rfl
  rw [big5AddByte, notReady]
  simp only [Bool.false_eq_true, if_false, none, gt_iff_lt, Nat.lt_irrefl]
  by_cases ascii : byte < 0x80
  · rw [if_pos ascii]
    refine .last (decide_eq_true ascii) ?_ (big5Awaits_init ?_)
    · match ctx.buf, size with
      | [_, _, _], _ => rfl
    · rw [List.length_set, List.length_set, size]
  · rw [if_neg ascii]
    by_cases outside : byte = 0x80 ∨ byte = 0xFF
    · rw [if_pos outside]
      refine .wrong ?_ (decide_eq_false ascii) (big5Awaits_error size)
      change big5Lead byte = false
      rw [big5Lead, decide_eq_true outside, Bool.not_true, Bool.and_false]
    · rw [if_neg outside]
      have lead : big5Lead byte = true := by
        rw [big5Lead, decide_eq_false ascii, decide_eq_false outside]
        rfl
      refine .more lead rfl (.inside ?_ lead rfl rfl ?_)
      · rw [List.length_set, List.length_set, size]
      · match ctx.buf, size with
        | [_, _, _], _ => rfl

theorem big5AddByte_inside {ctx : Big5Ctx} {lead : UInt8} (byte : UInt8)
    (size : ctx.buf.length = 3) (first : big5Lead lead = true) (need : ctx.need = 2)
    (got : ctx.got = 1) (stored : ctx.buf.getD 0 0 = lead) :
    Outcome big5Mb big5Grammar Big5Awaits [lead] byte (big5AddByte ctx byte) := by
  have notReady : big5IsReady ctx = false := by
    rw [big5IsReady, need, got]
    rfl
  rw [big5AddByte, notReady]
  simp only [Bool.false_eq_true, if_false, need, gt_iff_lt, Nat.zero_lt_succ, if_true]
  by_cases outside : byte < 0x40 ∨ byte = 0xFF
  · rw [if_pos outside]
    refine .wrong rfl ?_ (big5Awaits_error size)
    change (big5Lead lead && _) = false
    rw [decide_eq_true outside, Bool.not_true, Bool.and_false]
  · rw [if_neg outside]
    refine .last ?_ ?_ (big5Awaits_init ?_)
    · change (big5Lead lead && _) = true
      rw [first, decide_eq_false outside]
      rfl
    · subst stored
      match ctx.buf, size with
      | [_, _, _], _ => rfl
    · rw [List.length_set, List.length_set, size]

theorem big5Mb_decodes : Decodes big5Mb big5Grammar Big5Awaits where
  init := fun awaits => big5Awaits_init awaits.size
  pending := by
    intro ctx held awaits
    change big5Pending ctx ≠ 0 ↔ _
    cases awaits with
    | idle _ none =>
        rw [big5Pending, none, if_neg (by omega)]
        exact iff_of_false (fun pending => pending rfl) fun some => some rfl
    | inside _ _ need got =>
        rw [big5Pending, need, got]
        exact iff_of_true (by decide) (List.cons_ne_nil _ _)
  takes := by
    intro ctx held awaits byte
    cases awaits with
    | idle size none => exact big5AddByte_idle byte size none
    | inside size first need got stored => exact big5AddByte_inside byte size first need got stored

/-- `mbs_sanitize` in both builds, whatever lies in its context when it starts. -/
theorem mbsSanitize_wellFormed (str : Memory) (maxlen : Int) :
    (∀ ctx : { ctx : Utf8Ctx // ctx.buf.length = 5 },
      SanitizesWell utf8Mb utf8Grammar ctx.1 str maxlen) ∧
      ∀ ctx : { ctx : Big5Ctx // ctx.buf.length = 3 },
        SanitizesWell big5Mb big5Grammar ctx.1 str maxlen :=
  ⟨fun ctx => sanitizesWell utf8Mb_decodes (awaits_utf8Init ctx.2),
    fun ctx => sanitizesWell big5Mb_decodes (big5Awaits_init ctx.2)⟩

end Pttbbs.Common.Multibyte
