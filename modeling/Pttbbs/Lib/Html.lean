/-
Text in HTML.

A reader drops the tags and undoes the escapes.  Escaped text is read back as it was,
whatever bytes it has, and a tag as nothing.
-/

import Pttbbs.Lib.Bytes

namespace Pttbbs.Lib.Html

def entities : List (UInt8 × Bytes) :=
  [(38, utf8 "&amp;"), (39, utf8 "&#39;"), (60, utf8 "&lt;"), (62, utf8 "&gt;"), (34, utf8 "&#34;")]

def escapeByte (byte : UInt8) : Bytes :=
  match entities.find? (fun entity => entity.1 == byte) with
  | some entity => entity.2
  | none => [byte]

def escape (text : Bytes) : Bytes := text.flatMap escapeByte

/-- The counter skips the rest of an entity. -/
def unescapeFrom : Nat → Bytes → Bytes
  | _, [] => []
  | 0, byte :: rest =>
      match entities.find? (fun entity => entity.2.isPrefixOf (byte :: rest)) with
      | some entity => entity.1 :: unescapeFrom (entity.2.length - 1) rest
      | none => byte :: unescapeFrom 0 rest
  | skip + 1, _ :: rest => unescapeFrom skip rest

def stripTags : Bool → Bytes → Bytes
  | _, [] => []
  | false, byte :: rest => if byte = 60 then stripTags true rest else byte :: stripTags false rest
  | true, byte :: rest => stripTags (byte ≠ 62) rest

def shown (page : Bytes) : Bytes := unescapeFrom 0 (stripTags false page)

theorem escapeByte_cases (byte : UInt8) :
    (byte, escapeByte byte) ∈ entities ∨
      escapeByte byte = [byte] ∧ ∀ entity ∈ entities, byte ≠ entity.1 := by
  unfold escapeByte
  split
  · rename_i entity found
    have same : entity.1 = byte := by simpa using List.find?_some found
    exact .inl (same ▸ List.mem_of_find?_eq_some found)
  · rename_i absent
    refine .inr ⟨rfl, fun entity member same => ?_⟩
    simpa [same] using List.find?_eq_none.mp absent entity member

theorem not_mem_escapeByte (byte : UInt8) : 60 ∉ escapeByte byte := by
  rcases escapeByte_cases byte with named | ⟨plain, other⟩
  · exact (by decide : ∀ entity ∈ entities, 60 ∉ entity.2) _ named
  · rw [plain, List.mem_singleton]
    exact (other (60, utf8 "&lt;") (by decide)).symm

theorem unescapeFrom_escapeByte (byte : UInt8) (rest : Bytes) :
    unescapeFrom 0 (escapeByte byte ++ rest) = byte :: unescapeFrom 0 rest := by
  rcases escapeByte_cases byte with named | ⟨plain, other⟩
  · generalize escapeByte byte = written at named
    simp only [entities, List.mem_cons, Prod.mk.injEq, List.not_mem_nil, or_false] at named
    rcases named with ⟨rfl, rfl⟩ | ⟨rfl, rfl⟩ | ⟨rfl, rfl⟩ | ⟨rfl, rfl⟩ | ⟨rfl, rfl⟩ <;> rfl
  · have unnamed : entities.find? (fun entity => entity.2.isPrefixOf (byte :: rest)) = none := by
      rw [List.find?_eq_none]
      intro entity member starts
      have ampersand := (by decide : ∀ entity ∈ entities, entity.2.head? = some 38) entity member
      obtain ⟨behind, whole⟩ := List.isPrefixOf_iff_prefix.mp starts
      have first := congrArg List.head? whole
      rw [List.head?_append, ampersand] at first
      exact other (38, utf8 "&amp;") (by decide) (Option.some.inj first).symm
    rw [plain, List.singleton_append, unescapeFrom, unnamed]

theorem unescapeFrom_escape (text rest : Bytes) :
    unescapeFrom 0 (escape text ++ rest) = text ++ unescapeFrom 0 rest := by
  induction text with
  | nil => rfl
  | cons byte text ih =>
      rw [escape, List.flatMap_cons, List.append_assoc, unescapeFrom_escapeByte]
      exact congrArg _ ih

theorem stripTags_text {text : Bytes} (free : 60 ∉ text) (rest : Bytes) :
    stripTags false (text ++ rest) = text ++ stripTags false rest := by
  induction text with
  | nil => rfl
  | cons byte text ih =>
      rw [List.mem_cons, not_or] at free
      rw [List.cons_append, stripTags, if_neg (Ne.symm free.1), ih free.2]
      rfl

theorem stripTags_tag {name : Bytes} (free : 62 ∉ name) (rest : Bytes) :
    stripTags true (name ++ 62 :: rest) = stripTags false rest := by
  induction name with
  | nil => rfl
  | cons byte name ih =>
      rw [List.mem_cons, not_or] at free
      rw [List.cons_append, stripTags, decide_eq_true (Ne.symm free.1)]
      exact ih free.2

theorem shown_escape (text rest : Bytes) : shown (escape text ++ rest) = text ++ shown rest := by
  have free : 60 ∉ escape text := by
    rw [escape, List.mem_flatMap]
    rintro ⟨byte, _, inside⟩
    exact not_mem_escapeByte byte inside
  rw [shown, stripTags_text free, unescapeFrom_escape]
  rfl

theorem shown_tag {name : Bytes} (free : 62 ∉ name) (rest : Bytes) :
    shown (60 :: name ++ 62 :: rest) = shown rest :=
  congrArg (unescapeFrom 0) (stripTags_tag free rest)

theorem escape_high {text : Bytes} (high : ∀ byte ∈ text, 0x80 ≤ byte.toNat) :
    escape text = text := by
  have plain : ∀ byte ∈ text, escapeByte byte = [byte] := by
    intro byte member
    rcases escapeByte_cases byte with named | ⟨plain, _⟩
    · have low := (by decide : ∀ entity ∈ entities, entity.1.toNat < 0x80) _ named
      exact absurd low (Nat.not_lt.mpr (high byte member))
    · exact plain
  rw [escape, List.flatMap_congr plain]
  exact List.flatMap_singleton' text

end Pttbbs.Lib.Html
