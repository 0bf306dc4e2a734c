/-
What the bounded conversions write.

Each loop writes the characters of the source from the front while they fit.  A loop that
reads the buffer it writes stays behind its reading.
-/

import Pttbbs.Common.Big5Utf8

namespace Pttbbs.Common.Multibyte

open Pttbbs.Lib

/-! ### The rest of a source -/

def sourceFrom (cells : Bytes) (srcLen : Option Nat) (p : Nat) : Bytes :=
  (((srcLen.map cells.take).getD cells).drop p).takeWhile (· ≠ 0)

theorem sourceFrom_step (cells : Bytes) (srcLen : Option Nat) (p : Nat) :
    (beforeEnd srcLen p ∧ cells.getD p 0 ≠ 0 ∧
        sourceFrom cells srcLen p = cells.getD p 0 :: sourceFrom cells srcLen (p + 1)) ∨
      (¬ (beforeEnd srcLen p ∧ cells.getD p 0 ≠ 0) ∧ sourceFrom cells srcLen p = []) := by
  have whole : ∀ limited : Bytes,
      (p < limited.length ∧ limited.getD p 0 ≠ 0 ∧
          (limited.drop p).takeWhile (· ≠ 0) =
            limited.getD p 0 :: (limited.drop (p + 1)).takeWhile (· ≠ 0)) ∨
        (¬ (p < limited.length ∧ limited.getD p 0 ≠ 0) ∧
          (limited.drop p).takeWhile (· ≠ 0) = []) := by
    intro limited
    by_cases inside : p < limited.length
    · rw [List.drop_eq_getElem_cons inside, List.takeWhile_cons, List.getD_eq_getElem _ _ inside]
      by_cases nul : limited[p] = 0
      · simp [nul]
      · simp [nul, inside]
    · rw [List.drop_eq_nil_of_le (by omega)]
      exact .inr ⟨fun held => inside held.1, rfl⟩
  cases srcLen with
  | none =>
      simp only [beforeEnd, true_and, sourceFrom, Option.map_none, Option.getD_none]
      rcases whole cells with ⟨_, nonzero, rest⟩ | ⟨ends, rest⟩
      · exact .inl ⟨nonzero, rest⟩
      · refine .inr ⟨fun nonzero => ends ⟨?_, nonzero⟩, rest⟩
        by_contra outside
        exact nonzero (List.getD_eq_default _ _ (by omega))
  | some count =>
      simp only [beforeEnd, sourceFrom, Option.map_some, Option.getD_some]
      by_cases before : p < count
      · have same : (cells.take count).getD p 0 = cells.getD p 0 := by
          simp only [List.getD_eq_getElem?_getD, List.getElem?_take, before, if_true]
        have cases := whole (cells.take count)
        rw [same] at cases
        rcases cases with ⟨_, nonzero, rest⟩ | ⟨ends, rest⟩
        · exact .inl ⟨before, nonzero, rest⟩
        · refine .inr ⟨fun held => ends ⟨?_, held.2⟩, rest⟩
          by_contra outside
          rw [List.length_take] at outside
          exact held.2 (List.getD_eq_default _ _ (by omega))
      · refine .inr ⟨fun held => before held.1, ?_⟩
        rw [List.drop_eq_nil_of_le (by rw [List.length_take]; omega)]
        rfl

theorem sourceFrom_set {cells : Bytes} {srcLen : Option Nat} {p index : Nat} (byte : UInt8)
    (behind : index < p) : sourceFrom (cells.set index byte) srcLen p = sourceFrom cells srcLen p := by
  cases srcLen with
  | none =>
      simp only [sourceFrom, Option.map_none, Option.getD_none, List.drop_set_of_lt behind]
  | some count =>
      simp only [sourceFrom, Option.map_some, Option.getD_some, List.take_set,
        List.drop_set_of_lt behind]

theorem sourceFrom_length_le (cells : Bytes) (srcLen : Option Nat) (p : Nat) :
    (sourceFrom cells srcLen p).length ≤ cells.length := by
  refine Nat.le_trans (List.takeWhile_sublist _).length_le ?_
  cases srcLen with
  | none => simp
  | some count => simp

/-! ### Writing -/

namespace Buffers

structure Grows (before : Buffers) (done bytes : Bytes) (after : Buffers) : Prop where
  shared : after.shared = before.shared
  source : after.source = before.source
  size : after.dest.length = before.dest.length
  written : done ++ bytes <+: after.dest
  unread : ∀ srcLen p, (before.shared = true → done.length + bytes.length ≤ p) →
    sourceFrom after.cells srcLen p = sourceFrom before.cells srcLen p

theorem grows_write {buffers : Buffers} {done : Bytes} (byte : UInt8)
    (stands : done <+: buffers.dest) (room : done.length < buffers.dest.length) :
    Grows buffers done [byte] (buffers.write done.length byte) where
  shared := rfl
  source := rfl
  size := List.length_set
  written := by
    obtain ⟨rest, joined⟩ := stands
    cases rest with
    | nil =>
        rw [← joined, List.append_nil] at room
        omega
    | cons old rest =>
        refine ⟨rest, ?_⟩
        rw [write, ← joined]
        simp
  unread srcLen p apart := by
    unfold cells
    by_cases same : buffers.shared = true
    · have behind := apart same
      rw [List.length_singleton] at behind
      rw [write]
      simp only [same, if_true]
      exact sourceFrom_set byte (by omega)
    · simp only [write, same, Bool.false_eq_true, if_false]

theorem Grows.trans {first second third : Buffers} {done bytes more : Bytes}
    (one : Grows first done bytes second) (two : Grows second (done ++ bytes) more third) :
    Grows first done (bytes ++ more) third where
  shared := two.shared.trans one.shared
  source := two.source.trans one.source
  size := two.size.trans one.size
  written := by
    rw [← List.append_assoc]
    exact two.written
  unread srcLen p apart := by
    rw [List.length_append] at apart
    rw [two.unread srcLen p, one.unread srcLen p]
    · intro same
      have behind := apart same
      omega
    · intro same
      rw [one.shared] at same
      have behind := apart same
      rw [List.length_append]
      omega

theorem grows_writeAll {buffers : Buffers} {done : Bytes} (bytes : Bytes)
    (stands : done <+: buffers.dest) (room : done.length + bytes.length ≤ buffers.dest.length) :
    Grows buffers done bytes (buffers.writeAll done.length bytes) := by
  induction bytes generalizing buffers done with
  | nil => exact ⟨rfl, rfl, rfl, by rw [List.append_nil]; exact stands, fun _ _ _ => rfl⟩
  | cons byte rest ih =>
      rw [List.length_cons] at room
      have one := grows_write byte stands (by omega)
      have two := ih one.written (by rw [one.size, List.length_append, List.length_singleton]; omega)
      rw [List.length_append, List.length_singleton] at two
      exact one.trans two

end Buffers

/-! ### To Big5 -/

section ToBig5

variable (u2bTable : Nat → UInt16)

def big5Bytes (b5 : UInt16) : Bytes :=
  if b5 > 0xFF then [(b5 >>> 8).toUInt8, (b5 &&& 0xFF).toUInt8] else [b5.toUInt8]

def big5Unit : Token → Bytes
  | .char bytes => big5Bytes (big5Code u2bTable (codePoint bytes))
  | .error => [questionMark]

theorem big5Bytes_length (b5 : UInt16) :
    (big5Bytes b5).length = 1 ∨ (big5Bytes b5).length = 2 := by
  unfold big5Bytes
  split
  · exact .inr rfl
  · exact .inl rfl

theorem utf8ToBig5End_nothing {maxLen : Nat} {ctx : Utf8Ctx} {buffers : Buffers} {done : Bytes}
    (stands : done <+: buffers.dest) (room : done.length < buffers.dest.length)
    (nothing : utf8Pending ctx = 0 ∨ maxLen - 1 ≤ done.length) :
    buffers.Grows done [0] (utf8ToBig5End maxLen (ctx, buffers, done.length)) := by
  have skips : ¬ (utf8Pending ctx ≠ 0 ∧ done.length < maxLen - 1) := by omega
  rw [utf8ToBig5End, if_neg skips]
  exact Buffers.grows_write 0 stands room

theorem utf8ToBig5End_pending {maxLen : Nat} {ctx : Utf8Ctx} {buffers : Buffers} {done : Bytes}
    (stands : done <+: buffers.dest) (size : maxLen ≤ buffers.dest.length)
    (pending : utf8Pending ctx ≠ 0) (room : done.length < maxLen - 1) :
    buffers.Grows done [questionMark, 0] (utf8ToBig5End maxLen (ctx, buffers, done.length)) := by
  rw [utf8ToBig5End, if_pos ⟨pending, room⟩]
  exact Buffers.grows_writeAll [questionMark, 0] stands (by
    rw [List.length_cons, List.length_singleton]
    omega)

theorem Buffers.Grows.fit_cons {Item : Type} {unit : Item → Bytes} {item : Item}
    {rest : List Item} {room : Nat} {done : Bytes} {first second third : Buffers}
    (fits : (unit item).length ≤ room - done.length)
    (one : first.Grows done (unit item) second)
    (two : second.Grows (done ++ unit item)
      (fit unit (room - (done ++ unit item).length) rest ++ [0]) third) :
    first.Grows done (fit unit (room - done.length) (item :: rest) ++ [0]) third := by
  rw [fit_cons_of_le unit rest fits, List.append_assoc, Nat.sub_sub, ← List.length_append]
  exact one.trans two

theorem codePoint_single {byte : UInt8} (formed : wellFormed [byte] = true) :
    byte.toNat < 0x80 ∧ codePoint [byte] = byte.toNat := by
  rw [wellFormed, inRange_iff] at formed
  exact ⟨by omega, if_pos (by omega)⟩

def WritesBig5 (srcLen : Option Nat) (maxLen fuel : Nat) : Prop :=
  ∀ {ctx : Utf8Ctx} {held done : Bytes} {buffers : Buffers} {p : Nat}, Awaits ctx held →
    maxLen ≤ buffers.dest.length → done <+: buffers.dest → done.length < maxLen →
    (buffers.shared = true → done.length + held.length ≤ p) →
    (buffers.shared = true → ∀ byte ∈ sourceFrom buffers.cells srcLen p,
      byte.toNat < 0x80 → (big5Bytes (big5Code u2bTable byte.toNat)).length = 1) →
    2 * (sourceFrom buffers.cells srcLen p).length + (if held = [] then 0 else 1) < fuel →
    ∃ out, (utf8ToBig5Loop u2bTable srcLen maxLen fuel ctx buffers p done.length).map
        (utf8ToBig5End maxLen) = some out ∧
      buffers.Grows done (fit (big5Unit u2bTable) (maxLen - 1 - done.length)
        (readFrom held (sourceFrom buffers.cells srcLen p)) ++ [0]) out

variable {u2bTable}

theorem WritesBig5.emit {srcLen : Option Nat} {maxLen fuel p : Nat} {ctx : Utf8Ctx}
    {before buffers : Buffers} {done : Bytes} {token : Token}
    (writes : WritesBig5 u2bTable srcLen maxLen fuel) (awaits : Awaits ctx [])
    (size : maxLen ≤ before.dest.length)
    (grows : before.Grows done (big5Unit u2bTable token) buffers)
    (fits : (big5Unit u2bTable token).length ≤ maxLen - 1 - done.length)
    (nonempty : 0 < (big5Unit u2bTable token).length)
    (apart : before.shared = true → done.length + (big5Unit u2bTable token).length ≤ p)
    (single : before.shared = true → ∀ byte ∈ sourceFrom before.cells srcLen p,
      byte.toNat < 0x80 → (big5Bytes (big5Code u2bTable byte.toNat)).length = 1)
    (enough : 2 * (sourceFrom before.cells srcLen p).length < fuel) :
    ∃ out, (utf8ToBig5Loop u2bTable srcLen maxLen fuel ctx buffers p
        (done.length + (big5Unit u2bTable token).length)).map (utf8ToBig5End maxLen) = some out ∧
      before.Grows done (fit (big5Unit u2bTable) (maxLen - 1 - done.length)
        (token :: readFrom [] (sourceFrom before.cells srcLen p)) ++ [0]) out := by
  have same := grows.unread srcLen p apart
  have rounds := @writes ctx [] (done ++ big5Unit u2bTable token) buffers p awaits
    (by rw [grows.size]; exact size) grows.written (by rw [List.length_append]; omega)
    (by
      rw [grows.shared, List.length_append]
      exact fun shared => apart shared)
    (by
      rw [grows.shared, same]
      exact single)
    (by
      rw [same, if_pos rfl]
      exact enough)
  rw [same, List.length_append] at rounds
  obtain ⟨out, result, later⟩ := rounds
  refine ⟨out, result, grows.fit_cons fits ?_⟩
  rw [List.length_append]
  exact later

theorem writesBig5 (u2bTable : Nat → UInt16) (srcLen : Option Nat) (maxLen fuel : Nat) :
    WritesBig5 u2bTable srcLen maxLen fuel := by
  induction fuel with
  | zero =>
      intro ctx held done buffers p awaits size stands room apart single enough
      omega
  | succ fuel ih =>
      intro ctx held done buffers p awaits size stands room apart single enough
      rw [utf8ToBig5Loop]
      by_cases full : done.length < maxLen - 1
      · rcases sourceFrom_step buffers.cells srcLen p with ⟨before, nonzero, rest⟩ | ⟨ends, rest⟩
        · have goes : beforeEnd srcLen p ∧ buffers.read p ≠ 0 ∧ done.length < maxLen - 1 :=
            ⟨before, nonzero, full⟩
          have takes := utf8AddByte_takes awaits (buffers.read p)
          generalize utf8AddByte ctx (buffers.read p) = outcome at takes
          change sourceFrom buffers.cells srcLen p =
            buffers.read p :: sourceFrom buffers.cells srcLen (p + 1) at rest
          have later : buffers.shared = true → ∀ byte ∈ sourceFrom buffers.cells srcLen (p + 1),
              byte.toNat < 0x80 → (big5Bytes (big5Code u2bTable byte.toNat)).length = 1 := by
            intro same byte member
            apply single same byte
            rw [rest]
            exact List.mem_cons_of_mem _ member
          have fewer := enough
          rw [rest, List.length_cons] at fewer
          rw [if_pos goes]
          cases takes with
          | @more ctx opens quiet next =>
              simp only [Bool.false_eq_true, if_false, quiet]
              rw [rest, readFrom_open _ opens]
              apply ih next size stands room _ later
              · rw [if_neg (by simp)]
                split at fewer <;> omega
              · intro same
                have behind := apart same
                rw [List.length_append, List.length_singleton]
                omega
          | @last ctx formed holds =>
              obtain ⟨value, next⟩ := utf8GetUcs_holds holds
              simp only [if_true, value]
              rw [rest, readFrom_wellFormed _ formed]
              have behind : buffers.shared = true → done.length +
                  (big5Unit u2bTable (.char (held ++ [buffers.read p]))).length ≤ p + 1 := by
                intro same
                have far := apart same
                by_cases empty : held = []
                · rw [empty, List.nil_append] at formed
                  obtain ⟨ascii, point⟩ := codePoint_single formed
                  have one := single same (buffers.read p) (by rw [rest]; simp) ascii
                  rw [empty, List.nil_append, big5Unit, point, one]
                  omega
                · have some := List.length_pos_iff.mpr empty
                  have two := big5Bytes_length
                    (big5Code u2bTable (codePoint (held ++ [buffers.read p])))
                  rw [big5Unit]
                  omega
              generalize token : Token.char (held ++ [buffers.read p]) = char at behind ⊢
              have unit : big5Unit u2bTable char =
                  big5Bytes (big5Code u2bTable (codePoint (held ++ [buffers.read p]))) := by
                rw [← token]
                rfl
              generalize big5Code u2bTable (codePoint (held ++ [buffers.read p])) = b5 at unit ⊢
              unfold big5Bytes at unit
              by_cases wide : b5 > 0xFF
              · rw [if_pos wide] at unit
                have two : (big5Unit u2bTable char).length = 2 := by rw [unit]; rfl
                rw [if_pos wide]
                by_cases large : done.length + 2 ≥ maxLen
                · rw [if_pos large, fit_cons_of_lt _ _ (by omega)]
                  refine ⟨_, rfl, utf8ToBig5End_nothing stands (by omega) (.inl ?_)⟩
                  exact (utf8Pending_awaits next).mpr rfl
                · rw [if_neg large]
                  have grows := Buffers.grows_writeAll (big5Unit u2bTable char) stands (by omega)
                  have rounds := ih.emit next size grows (by omega) (by omega) behind later
                    (by split at fewer <;> omega)
                  rw [two, unit] at rounds
                  exact rounds
              · rw [if_neg wide] at unit
                have one : (big5Unit u2bTable char).length = 1 := by rw [unit]; rfl
                rw [if_neg wide]
                have grows := Buffers.grows_writeAll (big5Unit u2bTable char) stands (by omega)
                have rounds := ih.emit next size grows (by omega) (by omega) behind later
                  (by split at fewer <;> omega)
                rw [one, unit] at rounds
                exact rounds
          | @wrong ctx closed illFormed reports next =>
              simp only [Bool.false_eq_true, if_false, reports, if_true]
              have grows : buffers.Grows done (big5Unit u2bTable .error)
                  (buffers.write done.length questionMark) :=
                Buffers.grows_write questionMark stands (by omega)
              have one : (big5Unit u2bTable .error).length = 1 := rfl
              by_cases empty : held = []
              · have pending := (utf8Pending_awaits awaits).mpr empty
                rw [empty, List.nil_append] at closed illFormed
                rw [rest, empty, readFrom_wrong_first _ closed illFormed, pending,
                  if_neg (not_not_intro rfl)]
                refine ih.emit next size grows (by omega) (by omega) (fun same => ?_) later
                  (by split at fewer <;> omega)
                have behind := apart same
                omega
              · have pending : utf8Pending _ ≠ 0 :=
                  fun zero => empty ((utf8Pending_awaits awaits).mp zero)
                rw [rest, readFrom_wrong_inside _ empty closed illFormed, ← rest, if_pos pending,
                  Nat.add_sub_cancel]
                refine ih.emit next size grows (by omega) (by omega) (fun same => ?_) single
                  (by rw [if_neg empty] at enough; omega)
                have behind := apart same
                have some := List.length_pos_iff.mpr empty
                omega
        · have stops : ¬ (beforeEnd srcLen p ∧ buffers.read p ≠ 0 ∧ done.length < maxLen - 1) :=
            fun goes => ends ⟨goes.1, goes.2.1⟩
          rw [if_neg stops, rest, readFrom_nil]
          refine ⟨_, rfl, ?_⟩
          have pending := utf8Pending_awaits awaits
          by_cases empty : held = []
          · rw [if_pos empty]
            exact utf8ToBig5End_nothing stands (by omega) (.inl (pending.mpr empty))
          · rw [if_neg empty, fit_cons_of_le _ _ (by rw [big5Unit, List.length_singleton]; omega)]
            exact utf8ToBig5End_pending stands size (fun zero => empty (pending.mp zero)) full
      · have stops : ¬ (beforeEnd srcLen p ∧ buffers.read p ≠ 0 ∧ done.length < maxLen - 1) :=
          fun goes => full goes.2.2
        have none : maxLen - 1 - done.length = 0 := by omega
        rw [if_neg stops, none, fit_zero]
        exact ⟨_, rfl, utf8ToBig5End_nothing stands (by omega) (.inr (by omega))⟩

end ToBig5

/-! ### To UTF-8 -/

inductive Big5Char where
  | single (byte : UInt8)
  | double (lead trail : UInt8)
deriving DecidableEq, Repr

/-- The characters of a source.  A first byte at its end is dropped. -/
def big5Chars : Bytes → List Big5Char
  | [] => []
  | [byte] => if byte &&& 0x80 ≠ 0 then [] else [.single byte]
  | byte :: next :: rest =>
      if byte &&& 0x80 ≠ 0 ∧ next ≥ 0x40 then .double byte next :: big5Chars rest
      else .single byte :: big5Chars (next :: rest)

def utf8Bytes (ucs2 : UInt16) : Bytes :=
  if IsScalar ucs2.toNat then encodeUtf8 ucs2.toNat else []

theorem utf8FromUcs_bytes {ctx : Utf8Ctx} (size : ctx.buf.length = 5) (ucs2 : UInt16) :
    (utf8FromUcs ctx ucs2.toNat).1 = (utf8Bytes ucs2).length ∧
      utf8ToMb (utf8FromUcs ctx ucs2.toNat).2 = utf8Bytes ucs2 ∧
        (utf8FromUcs ctx ucs2.toNat).2.buf.length = 5 := by
  by_cases scalar : IsScalar ucs2.toNat
  · obtain ⟨count, holds⟩ := utf8FromUcs_scalar size scalar
    rw [utf8Bytes, if_pos scalar]
    exact ⟨count, holds.stored, holds.size⟩
  · have other : ¬ (0 ≤ (ucs2.toNat : Int) ∧ IsScalar (ucs2.toNat : Int).toNat) :=
      fun both => scalar both.2
    rw [utf8Bytes, if_neg scalar, utf8FromUcs_other other]
    refine ⟨rfl, List.take_zero, ?_⟩
    rw [utf8Init, List.length_set, size]

theorem Buffers.Grows.mark {before after : Buffers} {done bytes : Bytes}
    (grows : before.Grows done bytes after) (apart : before.shared = false) (byte : UInt8) :
    before.Grows done bytes (after.write (done.length + bytes.length) byte) where
  shared := grows.shared
  source := grows.source
  size := by rw [Buffers.write, List.length_set, grows.size]
  written := by
    obtain ⟨rest, joined⟩ := grows.written
    refine ⟨rest.set 0 byte, ?_⟩
    rw [Buffers.write, ← joined, List.set_append_right _ _ (by rw [List.length_append]),
      List.length_append, Nat.sub_self]
  unread srcLen p _ := by
    have same : after.shared = false := grows.shared.trans apart
    rw [← grows.unread srcLen p (by rw [apart]; simp)]
    simp only [Buffers.cells, Buffers.write, same, Bool.false_eq_true, if_false]

section ToUtf8

variable (b2uTable : UInt16 → UInt16)

def utf8Value : Big5Char → UInt16
  | .single byte => if byte &&& 0x80 ≠ 0 then questionMark.toUInt16 else byte.toUInt16
  | .double lead trail => b2uTable (lead.toUInt16 <<< 8 ||| trail.toUInt16)

def utf8Unit (char : Big5Char) : Bytes := utf8Bytes (utf8Value b2uTable char)

theorem big5Chars_ascii {byte : UInt8} (rest : Bytes) (ascii : ¬ byte &&& 0x80 ≠ 0) :
    big5Chars (byte :: rest) = .single byte :: big5Chars rest := by
  cases rest with
  | nil =>
      have one : big5Chars [byte] = if byte &&& 0x80 ≠ 0 then [] else [.single byte] := rfl
      rw [one, if_neg ascii]
      rfl
  | cons next rest => rw [big5Chars, if_neg (fun both => ascii both.1)]

def WritesUtf8 (srcLen : Option Nat) (maxLen fuel : Nat) : Prop :=
  ∀ {ctx : Utf8Ctx} {buffers : Buffers} {done : Bytes} {p : Nat}, ctx.buf.length = 5 →
    maxLen ≤ buffers.dest.length → done <+: buffers.dest → done.length < maxLen →
    buffers.shared = false → (sourceFrom buffers.cells srcLen p).length < fuel →
    ∃ out outIdx, big5ToUtf8Loop b2uTable srcLen maxLen fuel ctx buffers p done.length =
        some (out, outIdx) ∧
      buffers.Grows done (fit (utf8Unit b2uTable) (maxLen - 1 - done.length)
        (big5Chars (sourceFrom buffers.cells srcLen p)) ++ [0]) (out.write outIdx 0)

variable {b2uTable}

theorem WritesUtf8.emit {srcLen : Option Nat} {maxLen fuel : Nat} {ctx : Utf8Ctx}
    {buffers : Buffers} {done : Bytes} (writes : WritesUtf8 b2uTable srcLen maxLen fuel)
    (char : Big5Char) (p : Nat) (ready : ctx.buf.length = 5)
    (size : maxLen ≤ buffers.dest.length) (stands : done <+: buffers.dest)
    (room : done.length < maxLen) (apart : buffers.shared = false)
    (enough : (sourceFrom buffers.cells srcLen p).length < fuel) :
    ∃ out outIdx,
      (let made := utf8FromUcs ctx (utf8Value b2uTable char).toNat
        if done.length + made.1 ≥ maxLen then some (buffers, done.length)
        else big5ToUtf8Loop b2uTable srcLen maxLen fuel made.2
          ((buffers.writeAll done.length (utf8ToMb made.2)).write
            (done.length + (utf8ToMb made.2).length) 0) p
          (done.length + (utf8ToMb made.2).length)) = some (out, outIdx) ∧
      buffers.Grows done (fit (utf8Unit b2uTable) (maxLen - 1 - done.length)
        (char :: big5Chars (sourceFrom buffers.cells srcLen p)) ++ [0]) (out.write outIdx 0) := by
  obtain ⟨count, stored, nextReady⟩ := utf8FromUcs_bytes ready (utf8Value b2uTable char)
  change _ = (utf8Unit b2uTable char).length at count
  change _ = utf8Unit b2uTable char at stored
  dsimp only
  rw [count, stored]
  by_cases large : done.length + (utf8Unit b2uTable char).length ≥ maxLen
  · rw [if_pos large, fit_cons_of_lt _ _ (by omega)]
    exact ⟨buffers, done.length, rfl, Buffers.grows_write 0 stands (by omega)⟩
  · rw [if_neg large]
    have grows := (Buffers.grows_writeAll (utf8Unit b2uTable char) stands (by omega)).mark apart 0
    have same := grows.unread srcLen p (by rw [apart]; simp)
    have rounds := @writes _ _ _ p nextReady (by rw [grows.size]; exact size) grows.written
      (by rw [List.length_append]; omega) (grows.shared.trans apart) (by rw [same]; exact enough)
    rw [same, List.length_append] at rounds
    obtain ⟨out, outIdx, result, later⟩ := rounds
    refine ⟨out, outIdx, result, grows.fit_cons (by omega) ?_⟩
    rw [List.length_append]
    exact later

theorem writesUtf8 (b2uTable : UInt16 → UInt16) (srcLen : Option Nat) (maxLen fuel : Nat) :
    WritesUtf8 b2uTable srcLen maxLen fuel := by
  induction fuel with
  | zero =>
      intro ctx buffers done p ready size stands room apart enough
      omega
  | succ fuel ih =>
      intro ctx buffers done p ready size stands room apart enough
      have stop : buffers.Grows done [0] (buffers.write done.length 0) :=
        Buffers.grows_write 0 stands (by omega)
      rw [big5ToUtf8Loop]
      by_cases full : done.length < maxLen - 1
      · rcases sourceFrom_step buffers.cells srcLen p with ⟨before, nonzero, rest⟩ | ⟨ends, rest⟩
        · have goes : beforeEnd srcLen p ∧ buffers.read p ≠ 0 ∧ done.length < maxLen - 1 :=
            ⟨before, nonzero, full⟩
          change sourceFrom buffers.cells srcLen p =
            buffers.read p :: sourceFrom buffers.cells srcLen (p + 1) at rest
          rw [rest, List.length_cons] at enough
          rw [if_pos goes, rest]
          by_cases high : buffers.read p &&& 0x80 ≠ 0
          · rcases sourceFrom_step buffers.cells srcLen (p + 1) with
              ⟨nextBefore, nextNonzero, nextRest⟩ | ⟨nextEnds, nextRest⟩
            · change sourceFrom buffers.cells srcLen (p + 1) =
                buffers.read (p + 1) :: sourceFrom buffers.cells srcLen (p + 2) at nextRest
              have paired : ¬ (buffers.read p &&& 0x80 ≠ 0 ∧
                  (¬ beforeEnd srcLen (p + 1) ∨ buffers.read (p + 1) = 0)) := by
                rintro ⟨_, outside | nul⟩
                · exact outside nextBefore
                · exact nextNonzero nul
              dsimp only
              rw [if_neg paired, if_pos high]
              by_cases trail : buffers.read (p + 1) ≥ 0x40
              · have chars : big5Chars (buffers.read p :: sourceFrom buffers.cells srcLen (p + 1)) =
                    .double (buffers.read p) (buffers.read (p + 1)) ::
                      big5Chars (sourceFrom buffers.cells srcLen (p + 2)) := by
                  rw [nextRest, big5Chars, if_pos ⟨high, trail⟩]
                rw [nextRest, List.length_cons] at enough
                rw [if_pos trail, chars]
                exact ih.emit (.double _ _) (p + 2) ready size stands room apart (by omega)
              · have value : utf8Value b2uTable (.single (buffers.read p)) =
                    questionMark.toUInt16 := if_pos high
                have chars : big5Chars (buffers.read p :: sourceFrom buffers.cells srcLen (p + 1)) =
                    .single (buffers.read p) ::
                      big5Chars (sourceFrom buffers.cells srcLen (p + 1)) := by
                  rw [nextRest, big5Chars, if_neg (fun both => trail both.2)]
                rw [if_neg trail, chars, ← value]
                exact ih.emit (.single _) (p + 1) ready size stands room apart (by omega)
            · have dangling : buffers.read p &&& 0x80 ≠ 0 ∧
                  (¬ beforeEnd srcLen (p + 1) ∨ buffers.read (p + 1) = 0) := by
                refine ⟨high, ?_⟩
                by_contra neither
                rw [not_or, not_not] at neither
                exact nextEnds neither
              rw [if_pos dangling, nextRest, big5Chars, if_pos high]
              exact ⟨buffers, done.length, rfl, stop⟩
          · have single : ¬ (buffers.read p &&& 0x80 ≠ 0 ∧
                (¬ beforeEnd srcLen (p + 1) ∨ buffers.read (p + 1) = 0)) := fun both => high both.1
            have value : utf8Value b2uTable (.single (buffers.read p)) =
                (buffers.read p).toUInt16 := if_neg high
            dsimp only
            rw [if_neg single, if_neg high, big5Chars_ascii _ high, ← value]
            exact ih.emit (.single _) (p + 1) ready size stands room apart (by omega)
        · have stops : ¬ (beforeEnd srcLen p ∧ buffers.read p ≠ 0 ∧ done.length < maxLen - 1) :=
            fun goes => ends ⟨goes.1, goes.2.1⟩
          rw [if_neg stops, rest]
          exact ⟨buffers, done.length, rfl, stop⟩
      · have stops : ¬ (beforeEnd srcLen p ∧ buffers.read p ≠ 0 ∧ done.length < maxLen - 1) :=
          fun goes => full goes.2.2
        have none : maxLen - 1 - done.length = 0 := by omega
        rw [if_neg stops, none, fit_zero]
        exact ⟨buffers, done.length, rfl, stop⟩

end ToUtf8

end Pttbbs.Common.Multibyte
