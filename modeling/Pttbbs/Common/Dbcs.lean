/-
Strings of single and double bytes.

A byte from 0x80 on is the first half of a character, and the next byte the second one.  The
comparison without case walks over both strings at once, also behind their ends; the hash
stops at the end.
-/

import Pttbbs.Lib.Bytes
import Mathlib.Data.List.Basic

namespace Pttbbs.Common.Dbcs

open Pttbbs.Lib

/-! ### Strings in memory -/

abbrev Memory := Nat → UInt8

def Memory.next (memory : Memory) : Memory := fun index => memory (index + 1)

structure CString where
  text : Bytes
  terminated : 0 ∉ text
  behind : Memory

def memoryOf (behind : Memory) : Bytes → Memory
  | [], 0 => 0
  | [], index + 1 => behind index
  | byte :: _, 0 => byte
  | _ :: rest, index + 1 => memoryOf behind rest index

def CString.memory (string : CString) : Memory := memoryOf string.behind string.text

def tolower (byte : UInt8) : UInt8 := if 65 ≤ byte ∧ byte ≤ 90 then byte + 32 else byte

def toupper (byte : UInt8) : UInt8 := if 97 ≤ byte ∧ byte ≤ 122 then byte - 32 else byte

def strncasecmp : Nat → Memory → Memory → Int
  | 0, _, _ => 0
  | len + 1, s1, s2 =>
      let c1 := tolower (s1 0)
      let c2 := tolower (s2 0)
      if c1 ≠ c2 then (c1.toNat : Int) - c2.toNat
      else if c1 = 0 then 0
      else strncasecmp len s1.next s2.next

/-! ### Bytes of characters -/

def isDbcsLead (byte : UInt8) : Bool := byte ≥ 0x80

/-- What a byte is: `MB_ASCII`, `MB_LEADING` or `MB_TRAILING`. -/
inductive MbStatus where
  | ascii
  | leading
  | trailing
deriving DecidableEq, Repr

def big5NextStatus (byte : UInt8) (status : MbStatus) : MbStatus :=
  if status = .leading then .trailing else if isDbcsLead byte then .leading else .ascii

def rescan : Nat → MbStatus → MbStatus → Memory → Memory → Int
  | 0, _, _, _, _ => 0
  | len + 1, sts1, sts2, s1, s2 =>
      let sts1 := big5NextStatus (s1 0) sts1
      let sts2 := big5NextStatus (s2 0) sts2
      if sts1 ≠ .ascii ∧ s1 0 ≠ s2 0 then ((s1 0).toNat : Int) - (s2 0).toNat
      else rescan len sts1 sts2 s1.next s2.next

def mbsStrncasecmp (s1 s2 : Memory) (len : Nat) : Int :=
  let r := strncasecmp len s1 s2
  if r ≠ 0 then r else rescan len .ascii .ascii s1 s2

def fnvPrime : UInt32 := 0x01000193

def fnvInit : UInt32 := 33554467

def fnv1aDbcsStrcase (isDbcs : Bool) (hval : UInt32) : Bytes → UInt32
  | [] => hval
  | byte :: rest =>
      let second := isDbcs
      let c := if ¬ second ∧ byte < 0x80 then toupper byte else byte
      fnv1aDbcsStrcase (¬ second ∧ ¬ byte < 0x80) ((hval ^^^ c.toUInt32) * fnvPrime) rest

def mbsStrcasehash (text : Bytes) : UInt32 := fnv1aDbcsStrcase false fnvInit text

/-! ### The case of letters -/

/-- The text with its ASCII letters in lower case, but not the second bytes of characters;
`second` says whether a first byte stands before it. -/
def foldCaseFrom (second : Bool) : Bytes → Bytes
  | [] => []
  | byte :: rest =>
      (if second then byte else tolower byte) ::
        foldCaseFrom (¬ second ∧ isDbcsLead byte = true) rest

def foldCase (text : Bytes) : Bytes := foldCaseFrom false text

def AgreeUpTo (len : Nat) (left right : Bytes) : Prop :=
  (foldCase left ++ [0]).take len = (foldCase right ++ [0]).take len

theorem tolower_facts (byte : UInt8) :
    (isDbcsLead byte = true → tolower byte = byte) ∧
      (isDbcsLead (tolower byte) = isDbcsLead byte) ∧ (tolower byte = 0 ↔ byte = 0) ∧
      toupper (tolower byte) = toupper byte := by
  have all : ∀ value : Fin 256, (isDbcsLead (.ofNat value) = true →
        tolower (.ofNat value) = .ofNat value) ∧
      (isDbcsLead (tolower (.ofNat value)) = isDbcsLead (.ofNat value)) ∧
      (tolower (.ofNat value) = 0 ↔ (.ofNat value : UInt8) = 0) ∧
      toupper (tolower (.ofNat value)) = toupper (.ofNat value) := by decide +kernel
  have held := all ⟨byte.toNat, byte.toNat_lt⟩
  rw [UInt8.ofNat_toNat] at held
  exact held

theorem isDbcsLead_eq {left right : UInt8} (same : tolower left = tolower right) :
    isDbcsLead left = isDbcsLead right := by
  rw [← (tolower_facts left).2.1, ← (tolower_facts right).2.1, same]

/-! ### The second loop -/

/-- Behind the ends of two strings the bytes of characters of the first one are the same in
both. -/
def RestAgrees : Nat → MbStatus → Memory → Memory → Prop
  | 0, _, _, _ => True
  | len + 1, status, s1, s2 =>
      (big5NextStatus (s1 0) status ≠ .ascii → s1 0 = s2 0) ∧
        RestAgrees len (big5NextStatus (s1 0) status) s1.next s2.next

theorem rescan_eq_zero (len : Nat) (sts1 sts2 : MbStatus) (s1 s2 : Memory) :
    rescan len sts1 sts2 s1 s2 = 0 ↔ RestAgrees len sts1 s1 s2 := by
  induction len generalizing sts1 sts2 s1 s2 with
  | zero => exact iff_of_true rfl trivial
  | succ len ih =>
      simp only [rescan, RestAgrees]
      by_cases differs : big5NextStatus (s1 0) sts1 ≠ .ascii ∧ s1 0 ≠ s2 0
      · rw [if_pos differs]
        constructor
        · intro zero
          have same : (s1 0).toNat = (s2 0).toNat := by omega
          exact absurd (UInt8.toNat.inj same) differs.2
        · rintro ⟨same, _⟩
          exact absurd (same differs.1) differs.2
      · rw [if_neg differs, ih]
        have first : big5NextStatus (s1 0) sts1 ≠ .ascii → s1 0 = s2 0 := by
          intro half
          by_contra other
          exact differs ⟨half, other⟩
        exact ⟨fun rest => ⟨first, rest⟩, fun both => both.2⟩

theorem restAgrees_trailing (len : Nat) (s1 s2 : Memory) :
    RestAgrees len .trailing s1 s2 ↔ RestAgrees len .ascii s1 s2 := by
  cases len with
  | zero => exact Iff.rfl
  | succ len => exact Iff.rfl

theorem strncasecmp_succ (len : Nat) (s1 s2 : Memory) :
    strncasecmp (len + 1) s1 s2 = 0 ↔
      tolower (s1 0) = tolower (s2 0) ∧
        (s1 0 = 0 ∨ strncasecmp len s1.next s2.next = 0) := by
  simp only [strncasecmp]
  by_cases same : tolower (s1 0) = tolower (s2 0)
  · rw [if_neg (not_not.2 same)]
    by_cases ends : s1 0 = 0
    · rw [if_pos ((tolower_facts (s1 0)).2.2.1.2 ends)]
      exact iff_of_true rfl ⟨same, .inl ends⟩
    · rw [if_neg (mt (tolower_facts (s1 0)).2.2.1.1 ends)]
      exact ⟨fun rest => ⟨same, .inr rest⟩, fun both => both.2.resolve_left ends⟩
  · rw [if_pos same]
    constructor
    · intro zero
      have equal : (tolower (s1 0)).toNat = (tolower (s2 0)).toNat := by omega
      exact absurd (UInt8.toNat.inj equal) same
    · rintro ⟨equal, _⟩
      exact absurd equal same

theorem next_eq {left right : UInt8} (same : tolower left = tolower right) (status : MbStatus) :
    big5NextStatus left status = big5NextStatus right status := by
  unfold big5NextStatus
  rw [isDbcsLead_eq same]

def MbStatus.isLeading (status : MbStatus) : Bool := status = .leading

theorem isLeading_next (byte : UInt8) (status : MbStatus) :
    (big5NextStatus byte status).isLeading = (¬ status.isLeading ∧ isDbcsLead byte = true : Bool) := by
  unfold big5NextStatus MbStatus.isLeading
  cases status <;> cases isDbcsLead byte <;> rfl

theorem agree_head (byte other : UInt8) (status : MbStatus) :
    tolower byte = tolower other ∧ (big5NextStatus byte status ≠ .ascii → byte = other) ↔
      (if status.isLeading then byte else tolower byte) =
        if status.isLeading then other else tolower other := by
  by_cases second : status = .leading
  · have trailing : big5NextStatus byte status ≠ .ascii := by simp [big5NextStatus, second]
    have leading : status.isLeading = true := decide_eq_true second
    rw [leading, if_pos rfl, if_pos rfl]
    exact ⟨fun both => both.2 trailing, fun same => ⟨by rw [same], fun _ => same⟩⟩
  · have first : status.isLeading = false := decide_eq_false second
    rw [first, if_neg (by simp), if_neg (by simp)]
    refine ⟨fun both => both.1, fun same => ⟨same, fun half => ?_⟩⟩
    have lead : isDbcsLead byte = true := by
      by_contra single
      exact half (by simp [big5NextStatus, second, single])
    have lead' : isDbcsLead other = true := by rw [← isDbcsLead_eq same, lead]
    rw [← (tolower_facts byte).1 lead, same, (tolower_facts other).1 lead']

theorem compared (len : Nat) (sts : MbStatus) (left right : Bytes) (before after : Memory)
    (terminated : 0 ∉ left) (terminated' : 0 ∉ right) :
    (strncasecmp len (memoryOf before left) (memoryOf after right) = 0 ∧
      RestAgrees len sts (memoryOf before left) (memoryOf after right)) ↔
      (foldCaseFrom sts.isLeading left ++ [0]).take len =
          (foldCaseFrom sts.isLeading right ++ [0]).take len ∧
        RestAgrees (len - (left.length + 1)) .ascii before after := by
  have ends : ∀ (second : Bool) (byte : UInt8),
      (if second then byte else tolower byte) = 0 → byte = 0 := by
    intro second byte zero
    split at zero
    · exact zero
    · exact (tolower_facts byte).2.2.1.1 zero
  induction len generalizing sts left right with
  | zero => simp [strncasecmp, RestAgrees]
  | succ len ih =>
      rw [strncasecmp_succ]
      cases left with
      | nil =>
          cases right with
          | nil =>
              have ended : RestAgrees len (big5NextStatus 0 sts) before after ↔
                  RestAgrees len .ascii before after := by
                cases sts
                · exact Iff.rfl
                · exact restAgrees_trailing len before after
                · exact Iff.rfl
              change ((tolower 0 = tolower 0 ∧ ((0 : UInt8) = 0 ∨ _)) ∧
                (_ → (0 : UInt8) = 0) ∧ RestAgrees len (big5NextStatus 0 sts) before after) ↔ _
              rw [ended]
              simp only [foldCaseFrom, List.length_nil, Nat.zero_add, Nat.add_sub_cancel, true_and,
                true_or, implies_true]
          | cons byte rest =>
              have nonzero : byte ≠ 0 := fun zero => terminated' (by rw [zero]; simp)
              constructor
              · rintro ⟨⟨same, _⟩, _⟩
                exact absurd ((tolower_facts byte).2.2.1.1 same.symm) nonzero
              · rintro ⟨same, _⟩
                simp only [foldCaseFrom, List.nil_append, List.cons_append, List.take_succ_cons,
                  List.cons.injEq] at same
                exact absurd (ends _ byte same.1.symm) nonzero
      | cons byte rest =>
          have nonzero : byte ≠ 0 := fun zero => terminated (by rw [zero]; simp)
          cases right with
          | nil =>
              constructor
              · rintro ⟨⟨same, _⟩, _⟩
                exact absurd ((tolower_facts byte).2.2.1.1 same) nonzero
              · rintro ⟨same, _⟩
                simp only [foldCaseFrom, List.nil_append, List.cons_append, List.take_succ_cons,
                  List.cons.injEq] at same
                exact absurd (ends _ byte same.1) nonzero
          | cons other others =>
              have later := ih (big5NextStatus byte sts) rest others
                (fun member => terminated (List.mem_cons_of_mem _ member))
                (fun member => terminated' (List.mem_cons_of_mem _ member))
              have head := agree_head byte other sts
              have count : len + 1 - ((byte :: rest).length + 1) = len - (rest.length + 1) := by
                simp only [List.length_cons]
                omega
              simp only [foldCaseFrom, List.cons_append, List.take_succ_cons, List.cons.injEq, count,
                ← isLeading_next]
              change ((tolower byte = tolower other ∧ (byte = 0 ∨ strncasecmp len
                (memoryOf before rest) (memoryOf after others) = 0)) ∧
                (big5NextStatus byte sts ≠ .ascii → byte = other) ∧ RestAgrees len
                  (big5NextStatus byte sts) (memoryOf before rest) (memoryOf after others)) ↔ _
              constructor
              · rintro ⟨⟨same, found⟩, half, scanned⟩
                rw [← next_eq same sts]
                obtain ⟨tails, final⟩ := later.1 ⟨found.resolve_left nonzero, scanned⟩
                exact ⟨⟨head.1 ⟨same, half⟩, tails⟩, final⟩
              · rintro ⟨⟨heads, tails⟩, final⟩
                obtain ⟨same, half⟩ := head.2 heads
                rw [← next_eq same sts] at tails
                obtain ⟨found, scanned⟩ := later.2 ⟨tails, final⟩
                exact ⟨⟨same, .inr found⟩, half, scanned⟩

theorem mbsStrncasecmp_eq_zero (left right : CString) (len : Nat) :
    mbsStrncasecmp left.memory right.memory len = 0 ↔
      AgreeUpTo len left.text right.text ∧
        RestAgrees (len - (left.text.length + 1)) .ascii left.behind right.behind := by
  have both := compared len .ascii left.text right.text left.behind right.behind left.terminated
    right.terminated
  rw [mbsStrncasecmp]
  refine Iff.trans ?_ both
  split
  · rename_i differs
    exact iff_of_false differs fun held => differs held.1
  · rename_i same
    rw [rescan_eq_zero]
    exact ⟨fun rest => ⟨not_not.1 same, rest⟩, fun held => held.2⟩

/-! ### The hash -/

theorem hash_foldCase (second : Bool) (hval : UInt32) (text : Bytes) :
    fnv1aDbcsStrcase second hval (foldCaseFrom second text) = fnv1aDbcsStrcase second hval text := by
  induction text generalizing second hval with
  | nil => rfl
  | cons byte rest ih =>
      obtain ⟨_, lead, _, upper⟩ := tolower_facts byte
      have low : ∀ byte : UInt8, byte < 0x80 ↔ isDbcsLead byte = false := by
        intro byte
        simp [isDbcsLead]
      cases second with
      | true =>
          have later := ih false ((hval ^^^ byte.toUInt32) * fnvPrime)
          simpa [foldCaseFrom, fnv1aDbcsStrcase] using later
      | false =>
          by_cases half : isDbcsLead byte = true
          · have kept := (tolower_facts byte).1 half
            have later := ih true ((hval ^^^ byte.toUInt32) * fnvPrime)
            simpa [foldCaseFrom, fnv1aDbcsStrcase, low, half, kept] using later
          · have single : isDbcsLead byte = false := by simpa using half
            have later := ih false ((hval ^^^ (toupper byte).toUInt32) * fnvPrime)
            simpa [foldCaseFrom, fnv1aDbcsStrcase, low, lead, single, upper] using later

theorem mbsStrcasehash_foldCase (text : Bytes) :
    mbsStrcasehash (foldCase text) = mbsStrcasehash text :=
  hash_foldCase false fnvInit text

theorem agree_full {left right : Bytes} (agree : ∀ len, AgreeUpTo len left right) :
    foldCase left = foldCase right := by
  have whole := agree (max (foldCase left ++ [0]).length (foldCase right ++ [0]).length)
  unfold AgreeUpTo at whole
  rw [List.take_of_length_le (by omega), List.take_of_length_le (by omega)] at whole
  exact (List.append_inj' whole rfl).1

/-! ### The comparison is an equivalence -/

/-- The comparison decides whether the strings agree exactly when they differ, or the bytes of
characters that follow the end of the first one are followed by the same behind the other. -/
def Sound (left right : CString) (len : Nat) : Prop :=
  AgreeUpTo len left.text right.text →
    RestAgrees (len - (left.text.length + 1)) .ascii left.behind right.behind

theorem decides_iff (left right : CString) (len : Nat) :
    ((mbsStrncasecmp left.memory right.memory len = 0 ↔ AgreeUpTo len left.text right.text) ↔
        Sound left right len) ∧
      (Sound left right len → Sound right left len →
        mbsStrncasecmp left.memory right.memory len = 0 →
          mbsStrncasecmp right.memory left.memory len = 0) ∧
      (∀ third : CString, Sound left right len → Sound right third len → Sound left third len →
        mbsStrncasecmp left.memory right.memory len = 0 →
          mbsStrncasecmp right.memory third.memory len = 0 →
            mbsStrncasecmp left.memory third.memory len = 0) ∧
      ((∀ upTo, AgreeUpTo upTo left.text right.text) →
        mbsStrcasehash left.text = mbsStrcasehash right.text) := by
  refine ⟨?_, ?_, ?_, ?_⟩
  · rw [mbsStrncasecmp_eq_zero]
    exact ⟨fun decides agree => (decides.2 agree).2,
      fun sound => ⟨fun both => both.1, fun agree => ⟨agree, sound agree⟩⟩⟩
  · intro _ sound same
    rw [mbsStrncasecmp_eq_zero] at same ⊢
    exact ⟨same.1.symm, sound same.1.symm⟩
  · intro third _ _ sound first second
    rw [mbsStrncasecmp_eq_zero] at first second ⊢
    exact ⟨first.1.trans second.1, sound (first.1.trans second.1)⟩
  · intro agree
    rw [← mbsStrcasehash_foldCase, agree_full agree, mbsStrcasehash_foldCase]

/-- Two equal strings are compared as different when other bytes follow them. -/
theorem differs_behind :
    AgreeUpTo 8 [97] [65] ∧
      mbsStrncasecmp (CString.memory ⟨[97], by decide, fun _ => 0xA4⟩)
        (CString.memory ⟨[65], by decide, fun _ => 0xA5⟩) 8 ≠ 0 := by
  constructor
  · unfold AgreeUpTo
    decide
  · decide

end Pttbbs.Common.Dbcs
