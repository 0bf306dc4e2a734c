/-
Columns of a stream.

One function finds how many bytes fit into a number of columns, another one counts the columns
of so many bytes.  Both go over the stream in their own steps.
-/

import Pttbbs.Common.ControlSeq
import Pttbbs.Common.Big5Ctx

namespace Pttbbs.Common.StreamWidth

open Pttbbs.Lib
open Pttbbs.Common.ControlSeq (escChr skipControlSequence skip_range)
open Pttbbs.Common.Multibyte

/-! ### Characters -/

inductive Build where
  | big5
  | utf8 (ucsWidth : Int → Nat)

/-- The loop of `mb_bytes` and `mb_width`: the context when a character is ready. -/
def firstReady {Ctx : Type} (addByte : Ctx → UInt8 → Bool × Ctx) (pending : Ctx → Nat) :
    Ctx → Bytes → Option Ctx
  | _, [] => none
  | ctx, byte :: rest =>
      if (addByte ctx byte).1 then some (addByte ctx byte).2
      else if pending (addByte ctx byte).2 = 0 then none
      else firstReady addByte pending (addByte ctx byte).2 rest

def big5Start : Big5Ctx := big5Init { buf := [0, 0, 0], need := 0, got := 0, len := 0, ch := 0 }

def utf8Start : Utf8Ctx :=
  utf8Init { buf := [0, 0, 0, 0, 0], need := 0, got := 0, len := 0, ucs := 0 }

def mbBytes (build : Build) (s : Bytes) : Nat :=
  if s = [] then 0
  else
    match build with
    | .big5 => ((firstReady big5AddByte big5Pending big5Start s).map Big5Ctx.len).getD 1
    | .utf8 _ => ((firstReady utf8AddByte utf8Pending utf8Start s).map Utf8Ctx.len).getD 1

def mbCharWidth (build : Build) (ch : Int) : Nat :=
  if ch < 0 then 0
  else
    match build with
    | .big5 => if ch ≥ 0x0100 then 2 else if ch ≥ 0x20 ∧ ch ≠ 0x7F then 1 else 0
    | .utf8 ucsWidth => ucsWidth ch

def isWideLead (first second third : UInt8) : Bool :=
  (second &&& 0xC0 = 0x80 ∧ third &&& 0xC0 = 0x80) ∧
    ((0xE4 ≤ first ∧ first ≤ 0xE9 ∨ first = 0xEB ∨ first = 0xEC ∨ first = 0xEE) ∨
      first = 0xE3 ∧ second ≠ 0x80 ∧ second ≠ 0x82 ∨
      first = 0xEF ∧ (second ≤ 0xAB ∨ second = 0xBC))

def isPrintable (byte : UInt8) : Bool := 0x20 ≤ byte && byte < 0x7F

def mbWidth (build : Build) (s : Bytes) : Nat :=
  match s with
  | [] => 0
  | first :: rest =>
      match build with
      | .big5 =>
          match firstReady big5AddByte big5Pending big5Start s with
          | some ctx => mbCharWidth build (big5GetChar ctx).1
          | none => 1
      | .utf8 _ =>
          if first < 0x80 then if first ≥ 0x20 ∧ first ≠ 0x7F then 1 else 0
          else if isWideLead first (rest.getD 0 0) (rest.getD 1 0) then 2
          else
            match firstReady utf8AddByte utf8Pending utf8Start s with
            | some ctx => mbCharWidth build (utf8GetUcs ctx).1
            | none => 1

def isLead (byte : UInt8) : Bool := 0x81 ≤ byte && byte ≤ 0xFE

def isTrail (byte : UInt8) : Bool := 0x40 ≤ byte && byte ≠ 0xFF

def skipAll : Bytes → Nat
  | [] => 0
  | byte :: rest =>
      if byte = escChr then
        skipControlSequence rest + skipAll (rest.drop (skipControlSequence rest - 1))
      else 0
termination_by s => s.length
decreasing_by
  rw [List.length_drop, List.length_cons]
  omega

/-- The bytes of a character for Big5 with the control sequences between its halves. -/
def splitPair (build : Build) (s : Bytes) : Option Nat :=
  match build, s with
  | .big5, lead :: rest =>
      if isLead lead then
        match rest.drop (skipAll rest) with
        | trail :: _ => if isTrail trail then some (skipAll rest + 2) else none
        | [] => none
      else none
  | _, _ => none

/-! ### How many bytes a character has -/

theorem firstReady_cons {Ctx : Type} (addByte : Ctx → UInt8 → Bool × Ctx) (pending : Ctx → Nat)
    (ctx : Ctx) (byte : UInt8) (rest : Bytes) :
    firstReady addByte pending ctx (byte :: rest) =
      if (addByte ctx byte).1 then some (addByte ctx byte).2
      else if pending (addByte ctx byte).2 = 0 then none
      else firstReady addByte pending (addByte ctx byte).2 rest := rfl

theorem Awaits.short {ctx : Utf8Ctx} {held : Bytes} (awaits : Awaits ctx held) :
    held.length < 4 := by
  cases awaits with
  | idle => decide
  | inside size begun =>
      cases held with
      | nil => cases begun
      | cons lead rest =>
          obtain ⟨_, _, short⟩ := (isOpen_cons _ _).mp begun
          exact short.trans_le (sequenceLength_le lead)

theorem utf8AddByte_len {ctx : Utf8Ctx} {held : Bytes} {byte : UInt8} (awaits : Awaits ctx held)
    (ready : (utf8AddByte ctx byte).1 = true) :
    (utf8AddByte ctx byte).2.len = held.length + 1 := by
  have takes := utf8AddByte_takes awaits byte
  have short := Awaits.short awaits
  generalize utf8AddByte ctx byte = result at *
  cases takes with
  | more => cases ready
  | wrong => cases ready
  | last formed holds =>
      have lengths := congrArg List.length holds.stored
      rw [utf8ToMb, List.length_take, holds.size, List.length_append, List.length_singleton]
        at lengths
      dsimp only
      omega

theorem firstReady_utf8 {ctx : Utf8Ctx} {held : Bytes} (awaits : Awaits ctx held) (s : Bytes) :
    ∀ found ∈ firstReady utf8AddByte utf8Pending ctx s,
      held.length < found.len ∧ found.len ≤ held.length + s.length := by
  induction s generalizing ctx held with
  | nil => simp [firstReady]
  | cons byte rest ih =>
      intro found member
      have takes := utf8AddByte_takes awaits byte
      rw [firstReady_cons] at member
      by_cases ready : (utf8AddByte ctx byte).1 = true
      · rw [if_pos ready] at member
        have same : (utf8AddByte ctx byte).2 = found := Option.some.inj member
        rw [← same, utf8AddByte_len awaits ready, List.length_cons]
        omega
      · rw [if_neg ready] at member
        split at member
        · cases member
        · generalize utf8AddByte ctx byte = result at *
          cases takes with
          | more opens quiet awaits =>
              have bounds := ih awaits found member
              rw [List.length_append, List.length_singleton] at bounds
              rw [List.length_cons]
              omega
          | last formed holds => exact absurd rfl ready
          | wrong closed illFormed reports awaits =>
              rename_i pending
              rw [utf8Pending_awaits awaits] at pending
              exact absurd rfl pending

theorem trail_iff (byte : UInt8) : isTrail byte = true ↔ ¬ (byte < 0x40 ∨ byte = 0xFF) :=
  forall_byte (fun byte => isTrail byte = true ↔ ¬ (byte < 0x40 ∨ byte = 0xFF)) (by decide +kernel) byte

theorem high_not_lead (byte : UInt8) (high : ¬ byte < 0x80) (other : isLead byte = false) :
    byte = 0x80 ∨ byte = 0xFF :=
  forall_byte (fun byte => ¬ byte < 0x80 → isLead byte = false → byte = 0x80 ∨ byte = 0xFF)
    (by decide +kernel) byte high other

theorem firstReady_big5 (first : UInt8) (rest : Bytes) :
    firstReady big5AddByte big5Pending big5Start (first :: rest) =
      if first < 0x80 then
        some { buf := [first, 0, 0], need := 1, got := 1, len := 1, ch := first.toNat }
      else if isLead first ∧ isTrail (rest.headD 0) then
        some
          { buf := [first, rest.headD 0, 0]
            need := 2
            got := 2
            len := 2
            ch := ((first.toNat <<< 8 ||| (rest.headD 0).toNat : Nat) : Int) }
      else none := by
  have fresh : big5IsReady big5Start = false := rfl
  rw [firstReady_cons]
  by_cases ascii : first < 0x80
  · have taken : big5AddByte big5Start first =
        (true, { buf := [first, 0, 0], need := 1, got := 1, len := 1, ch := first.toNat }) := by
      simp only [big5AddByte, fresh, Bool.false_eq_true, if_false, if_pos ascii]
      rfl
    rw [if_pos ascii, taken]
    rfl
  · rw [if_neg ascii]
    by_cases lead : isLead first = true
    · have inside : ¬ (first = 0x80 ∨ first = 0xFF) := by
        rintro (rfl | rfl) <;> cases lead
      have taken : big5AddByte big5Start first =
          (false, { buf := [first, 0, 0], need := 2, got := 1, len := 0, ch := -1 }) := by
        simp only [big5AddByte, fresh, Bool.false_eq_true, if_false, if_neg ascii, if_neg inside]
        rfl
      have waits : ¬ big5Pending
          { buf := [first, 0, 0], need := 2, got := 1, len := 0, ch := -1 } = 0 := by
        simp [big5Pending]
      rw [taken, if_neg (by simp), if_neg waits]
      cases rest with
      | nil => rw [if_neg (fun pair => by cases pair.2)]; rfl
      | cons second others =>
          have ready : big5IsReady
              { buf := [first, 0, 0], need := 2, got := 1, len := 0, ch := -1 } = false := rfl
          rw [firstReady_cons, List.headD_cons]
          by_cases trail : isTrail second = true
          · have inside := (trail_iff second).1 trail
            rw [if_pos (And.intro lead trail)]
            simp only [big5AddByte, ready, Bool.false_eq_true, if_false, if_neg inside]
            rfl
          · have wrong := not_not.1 (mt (trail_iff second).2 trail)
            rw [if_neg (fun pair : isLead first = true ∧ isTrail second = true => trail pair.2)]
            simp only [big5AddByte, ready, Bool.false_eq_true, if_false, if_pos wrong]
            rfl
    · have outside : first = 0x80 ∨ first = 0xFF := high_not_lead first ascii (by simpa using lead)
      have wrong : big5AddByte big5Start first = (false, big5Error big5Start) := by
        simp only [big5AddByte, fresh, Bool.false_eq_true, if_false, if_neg ascii, if_pos outside]
        rfl
      have idle : big5Pending (big5Error big5Start) = 0 := rfl
      rw [wrong, if_neg (by simp), if_pos idle, if_neg (fun pair => lead pair.1)]

theorem mbBytes_range {build : Build} {s : Bytes} (more : s ≠ []) :
    1 ≤ mbBytes build s ∧ mbBytes build s ≤ s.length := by
  have longer := List.length_pos_of_ne_nil more
  unfold mbBytes
  rw [if_neg more]
  cases build with
  | big5 =>
      cases s with
      | nil => exact absurd rfl more
      | cons first rest =>
          change 1 ≤ ((firstReady big5AddByte big5Pending big5Start (first :: rest)).map
            Big5Ctx.len).getD 1 ∧ ((firstReady big5AddByte big5Pending big5Start
              (first :: rest)).map Big5Ctx.len).getD 1 ≤ _
          rw [firstReady_big5]
          split
          · exact ⟨Nat.le_refl _, longer⟩
          · split
            · rename_i pair
              cases rest with
              | nil => cases pair.2
              | cons second others =>
                  change 1 ≤ 2 ∧ 2 ≤ (first :: second :: others).length
                  exact ⟨by decide, by simp⟩
            · exact ⟨Nat.le_refl _, longer⟩
  | utf8 ucsWidth =>
      have start : Awaits utf8Start [] := awaits_utf8Init rfl
      change 1 ≤ ((firstReady utf8AddByte utf8Pending utf8Start s).map Utf8Ctx.len).getD 1 ∧
        ((firstReady utf8AddByte utf8Pending utf8Start s).map Utf8Ctx.len).getD 1 ≤ _
      cases found : firstReady utf8AddByte utf8Pending utf8Start s with
      | none => exact ⟨Nat.le_refl _, longer⟩
      | some ctx =>
          have bounds := firstReady_utf8 start s ctx found
          rw [List.length_nil, Nat.zero_add] at bounds
          exact bounds

/-! ### The two loops -/

/-- The loop of `stream_col_offset`: the bytes that are passed and the columns with them. -/
def colLoop (build : Build) (count : Nat) (cols : Nat) : Bytes → Nat × Nat
  | [] => (0, cols)
  | byte :: rest =>
      if byte = escChr then
        let behind := colLoop build count cols (rest.drop (skipControlSequence rest - 1))
        (skipControlSequence rest + behind.1, behind.2)
      else if isPrintable byte then
        if cols + 1 > count then (0, cols)
        else
          let behind := colLoop build count (cols + 1) rest
          (1 + behind.1, behind.2)
      else
        match splitPair build (byte :: rest) with
        | some size =>
            if cols + 2 > count then (0, cols)
            else
              let behind := colLoop build count (cols + 2) (rest.drop (size - 1))
              (size + behind.1, behind.2)
        | none =>
            let w := mbWidth build (byte :: rest)
            if cols + w > count then (0, cols)
            else
              let size := mbBytes build (byte :: rest)
              let behind := colLoop build count (cols + w) (rest.drop (size - 1))
              (size + behind.1, behind.2)
termination_by s => s.length
decreasing_by all_goals simp only [List.length_drop, List.length_cons]; omega

/-- `stream_col_offset`: the offset, and `real_cols`. -/
def streamColOffset (build : Build) (count : Int) (s : Bytes) : Nat × Nat :=
  if count ≤ 0 then (0, 0) else colLoop build count.toNat 0 s

/-- The loop of `stream_width_n`, with the number of bytes before `end`. -/
def widthLoop (build : Build) (left : Nat) : Bytes → Nat
  | [] => 0
  | byte :: rest =>
      if left = 0 then 0
      else if byte = escChr then
        widthLoop build (left - skipControlSequence rest)
          (rest.drop (skipControlSequence rest - 1))
      else
        match build with
        | .big5 => 1 + widthLoop build (left - 1) rest
        | .utf8 _ =>
            let b := mbBytes build (byte :: rest)
            if b > left then 0
            else mbWidth build (byte :: rest) + widthLoop build (left - b) (rest.drop (b - 1))
termination_by s => s.length
decreasing_by all_goals simp only [List.length_drop, List.length_cons]; omega

def streamWidthN (build : Build) (s : Bytes) (len : Int) : Nat :=
  if len ≤ 0 then 0 else widthLoop build len.toNat s

def streamWidth (build : Build) (s : Bytes) : Nat :=
  if s = [] then 0 else streamWidthN build s s.length

end Pttbbs.Common.StreamWidth
