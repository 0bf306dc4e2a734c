/-
Control sequences as the keyboard parser reads them.

While a parameter string is fed, the context carries the numbers stored so far.  The
sequence is then interpreted with the parameters of the grammar exactly when the numbers
stored are these.
-/

import Pttbbs.Common.VtkbdRuns

namespace Pttbbs.Common.Vtkbd

open Pttbbs.Lib

structure Carries (marker : UInt8) (mouse : Mouse) (lead : Nat) (body : Bytes)
    (ctx : VtkbdCtx) : Prop where
  range : InRange ctx
  state : ctx.state = .csi
  csiPrefix : ctx.csiPrefix = marker
  mouse : ctx.mouse = mouse
  params : ctx.csiParams = storedParams body
  count : ctx.csiParamCount = storedCount body
  interCount : ctx.csiInterCount = 0
  len : ctx.csiLen = lead + body.length

variable {marker : UInt8} {mouse : Mouse} {lead : Nat} {body : Bytes} {ctx : VtkbdCtx} {c : UInt8}

theorem getD_storedParams (body : Bytes) {place : Nat} (within : place < 8) :
    (storedParams body).getD place 0 = digitsValue (slot (effective body) place) := by
  have length : (storedParams body).length = 8 := by simp [storedParams]
  rw [List.getD_eq_getElem _ _ (by omega)]
  simp [storedParams]

theorem storedCount_semicolon (body : Bytes) :
    storedCount (body ++ [59]) = min (storedCount body + 1) 8 := by
  rw [storedCount, storedCount, effective_semicolon, List.length_append, List.length_singleton]
  omega

theorem storedParams_semicolon (body : Bytes) : storedParams (body ++ [59]) = storedParams body := by
  unfold storedParams
  rw [effective_semicolon]
  apply List.map_congr_left
  intro place _within
  rw [slot_semicolon]

theorem effective_digit_place (apart : c ≠ 59) (body : Bytes) :
    storedCount (body ++ [c]) = max 1 (storedCount body) ∧
      ∀ place < 8, slot (effective (body ++ [c])) place =
        if place = max 1 (storedCount body) - 1 then slot (effective body) place ++ [c]
        else slot (effective body) place := by
  unfold storedCount
  rcases effective_digit apart body with ⟨before, after⟩ | ⟨front, last, before, after⟩
  · rw [before, after]
    refine ⟨rfl, ?_⟩
    intro place within
    have first := slot_digit [] [] c within
    have empty : slot [[]] place = slot [] place := slot_semicolon [] place
    rw [List.nil_append, List.nil_append, List.nil_append, empty] at first
    exact first
  · rw [before, after]
    refine ⟨?_, ?_⟩
    · rw [List.length_append, List.length_append, List.length_singleton, List.length_singleton]
      omega
    · intro place within
      have target : max 1 (min (front ++ [last]).length 8) - 1 = min front.length 7 := by
        rw [List.length_append, List.length_singleton]
        omega
      rw [target, slot_digit front last c within]

theorem fits_semicolon (body : Bytes) : Fits (body ++ [59]) ↔ Fits body := by
  unfold Fits
  simp only [effective_semicolon, slot_semicolon]

theorem place_lt (body : Bytes) : max 1 (storedCount body) - 1 < 8 := by
  unfold storedCount
  omega

def grown (body : Bytes) (c : UInt8) : Nat :=
  digitsValue (slot (effective body) (max 1 (storedCount body) - 1)) * 10 + (c.toNat - 48)

theorem fits_digit (apart : c ≠ 59) (body : Bytes) :
    Fits (body ++ [c]) ↔ Fits body ∧ grown body c ≤ intMax := by
  obtain ⟨_, places⟩ := effective_digit_place apart body
  have target := places _ (place_lt body)
  rw [if_pos rfl] at target
  constructor
  · intro fits
    constructor
    · intro place within
      have bound := fits place within
      rw [places place within] at bound
      split at bound
      · rw [digitsValue_concat] at bound
        omega
      · exact bound
    · have bound := fits _ (place_lt body)
      rw [target, digitsValue_concat] at bound
      exact bound
  · rintro ⟨fits, bound⟩ place within
    rw [places place within]
    split
    case isTrue here =>
        rw [digitsValue_concat, here]
        exact bound
    case isFalse => exact fits place within

theorem storedParams_digit (apart : c ≠ 59) (body : Bytes) :
    storedParams (body ++ [c]) =
      (storedParams body).set (max 1 (storedCount body) - 1) (grown body c) := by
  obtain ⟨_, places⟩ := effective_digit_place apart body
  apply List.ext_getElem
  · simp [storedParams]
  · intro place left _right
    have within : place < 8 := by simpa [storedParams] using left
    rw [List.getElem_set]
    simp only [storedParams, List.getElem_map, List.getElem_range]
    rw [places place within]
    by_cases here : max 1 (storedCount body) - 1 = place
    · rw [if_pos here.symm, if_pos here, digitsValue_concat, grown, here]
    · rw [if_neg (Ne.symm here), if_neg here]

theorem vtkbdProcess_parameter (state : ctx.state = .csi) (short : ctx.csiLen < csiMaxLen)
    (parameter : isParameter c = true) :
    vtkbdProcess c ctx =
      (csiParameter c { ctx with csiLen := ctx.csiLen + 1 }).map fun ctx => (ctx, keyINCOMPLETE) := by
  have bounds := parameter
  rw [isParameter, Bool.and_eq_true, decide_eq_true_eq, decide_eq_true_eq, UInt8.le_iff_toNat_le,
    UInt8.le_iff_toNat_le] at bounds
  change 48 ≤ c.toNat ∧ c.toNat ≤ 63 at bounds
  have escape : c ≠ 27 := by
    rintro rfl
    exact absurd bounds.1 (by decide)
  have control : ¬ (c < 0x20 ∨ c = 0x7F) := by
    rw [UInt8.lt_iff_toNat_lt, ← UInt8.toNat_inj]
    change ¬ (c.toNat < 32 ∨ c.toNat = 127)
    omega
  have high : ¬ c > 0x7E := by
    rw [gt_iff_lt, UInt8.lt_iff_toNat_lt]
    change ¬ 126 < c.toNat
    omega
  have inside : vtkbdProcess c ctx = processCsi c ctx := by
    rw [vtkbdProcess, state]
  rw [inside]
  simp only [processCsi, if_neg escape, if_neg (show ¬ ctx.csiLen + 1 > csiMaxLen by omega),
    if_neg control, if_neg high, parameter, ite_true]

theorem isParameter_of_digit (digit : isDigitByte c = true) :
    isParameter c = true ∧ isPrivate c = false ∧ c ≠ 59 ∧ c ≠ 58 := by
  rw [isDigitByte, Bool.and_eq_true, decide_eq_true_eq, decide_eq_true_eq, UInt8.le_iff_toNat_le,
    UInt8.le_iff_toNat_le] at digit
  change 48 ≤ c.toNat ∧ c.toNat ≤ 57 at digit
  have apart : ∀ other : UInt8, 57 < other.toNat → c ≠ other := by
    rintro other large rfl
    omega
  refine ⟨?_, ?_, apart 59 (by decide), apart 58 (by decide)⟩
  · rw [isParameter, Bool.and_eq_true, decide_eq_true_eq, decide_eq_true_eq,
      UInt8.le_iff_toNat_le, UInt8.le_iff_toNat_le]
    change 48 ≤ c.toNat ∧ c.toNat ≤ 63
    omega
  · simp [isPrivate, apart 60 (by decide), apart 61 (by decide), apart 62 (by decide),
      apart 63 (by decide)]

theorem isParameter_of_private (marks : isPrivate c = true) : isParameter c = true := by
  simp only [isPrivate, Bool.or_eq_true, beq_iff_eq] at marks
  rcases marks with ((rfl | rfl) | rfl) | rfl <;> decide

theorem Carries.semicolon (carries : Carries marker mouse lead body ctx)
    (short : lead + body.length < csiMaxLen) :
    ∃ next, vtkbdProcess 59 ctx = some (next, keyINCOMPLETE) ∧
      Carries marker mouse lead (body ++ [59]) next := by
  have len := carries.len
  have count := carries.count
  have bound := carries.range.paramCount
  rw [vtkbdProcess_parameter carries.state (by omega) (by decide)]
  have parameter : csiParameter 59 { ctx with csiLen := ctx.csiLen + 1 } =
      some { ctx with
        csiLen := ctx.csiLen + 1
        csiParamCount :=
          if ctx.csiParamCount < vtkbdMaxParams then ctx.csiParamCount + 1 else ctx.csiParamCount
        csiHasParam := false } := by
    have none : ¬ ctx.csiInterCount > 0 := by rw [carries.interCount]; decide
    simp only [csiParameter, if_neg none]
    rw [if_neg (by rintro ⟨_, private_⟩; exact absurd private_ (by decide)), if_pos (Or.inl trivial)]
  have counted : InRange { ctx with csiLen := ctx.csiLen + 1 } :=
    { carries.range with len := fun _ => show ctx.csiLen + 1 ≤ csiMaxLen by omega }
  have kept := counted.parameter parameter
  refine ⟨_, by rw [parameter]; rfl, ?_⟩
  refine ⟨kept.1, carries.state, carries.csiPrefix, carries.mouse, ?_, ?_, carries.interCount, ?_⟩
  · exact carries.params.trans (storedParams_semicolon body).symm
  · rw [storedCount_semicolon, ← count]
    unfold vtkbdMaxParams at bound ⊢
    change (if ctx.csiParamCount < 8 then ctx.csiParamCount + 1 else ctx.csiParamCount) = _
    split <;> omega
  · rw [List.length_append, List.length_singleton]
    change ctx.csiLen + 1 = _
    omega

theorem Carries.digit (carries : Carries marker mouse lead body ctx)
    (digit : isDigitByte c = true) (short : lead + body.length < csiMaxLen) :
    (grown body c ≤ intMax → ∃ next, vtkbdProcess c ctx = some (next, keyINCOMPLETE) ∧
      Carries marker mouse lead (body ++ [c]) next) ∧
      (intMax < grown body c → vtkbdProcess c ctx = none) := by
  have len := carries.len
  have count := carries.count
  obtain ⟨isParam, notPrivate, notSemicolon, notColon⟩ := isParameter_of_digit digit
  rw [vtkbdProcess_parameter carries.state (by omega) isParam]
  have counted : InRange { ctx with csiLen := ctx.csiLen + 1 } :=
    { carries.range with len := fun _ => show ctx.csiLen + 1 ≤ csiMaxLen by omega }
  have value : ctx.csiParams.getD (max 1 ctx.csiParamCount - 1) 0 * 10 + (c.toNat - 48) =
      grown body c := by
    rw [carries.params, carries.count, getD_storedParams body (place_lt body), grown]
  have parameter : csiParameter c { ctx with csiLen := ctx.csiLen + 1 } =
      csiDigit c { ctx with csiLen := ctx.csiLen + 1 } := by
    have none : ¬ ctx.csiInterCount > 0 := by rw [carries.interCount]; decide
    simp only [csiParameter, if_neg none, notPrivate, Bool.false_eq_true, and_false, ite_false,
      notSemicolon, notColon, or_self, digit, ite_true]
  have stored := csiDigit_eq counted c
  simp only [value] at stored
  rw [parameter, stored]
  constructor
  · intro fits
    rw [if_neg (by omega)]
    rw [if_neg (by omega)] at stored
    have kept := counted.digit stored
    refine ⟨_, rfl, ?_⟩
    refine ⟨kept.1, carries.state, carries.csiPrefix, carries.mouse, ?_, ?_, carries.interCount, ?_⟩
    · rw [storedParams_digit notSemicolon, ← count, ← carries.params]
    · rw [(effective_digit_place notSemicolon body).1, ← count]
    · rw [List.length_append, List.length_singleton]
      change ctx.csiLen + 1 = _
      omega
  · intro overflow
    rw [if_pos overflow]
    rfl

theorem Carries.feed (carries : Carries marker mouse lead [] ctx) (valid : IsParameterString body)
    (short : lead + body.length ≤ csiMaxLen) :
    (Fits body → ∃ mid keys, processAll ctx body = some (mid, keys) ∧
      (∀ key ∈ keys, key = keyINCOMPLETE) ∧ Carries marker mouse lead body mid) ∧
      (¬ Fits body → processAll ctx body = none) := by
  induction body using List.reverseRecOn with
  | nil =>
      constructor
      · intro _fits
        exact ⟨ctx, [], rfl, by simp, carries⟩
      · intro overflow
        refine absurd ?_ overflow
        intro place within
        rw [effective_nil, slot_beyond within (Nat.zero_le _)]
        exact Nat.zero_le _
  | append_singleton body c ih =>
      rw [List.length_append, List.length_singleton] at short
      have front : IsParameterString body := fun other member =>
        valid other (List.mem_append_left _ member)
      obtain ⟨runs, fails⟩ := ih front (by omega)
      have one : ∀ next, processAll next [c] =
          (vtkbdProcess c next).map fun result => (result.1, [result.2]) := by
        intro next
        rw [processAll]
        cases vtkbdProcess c next <;> rfl
      have step : Fits body → ∃ mid keys, processAll ctx body = some (mid, keys) ∧
          (∀ key ∈ keys, key = keyINCOMPLETE) ∧
          (Fits (body ++ [c]) → ∃ next, vtkbdProcess c mid = some (next, keyINCOMPLETE) ∧
            Carries marker mouse lead (body ++ [c]) next) ∧
          (¬ Fits (body ++ [c]) → vtkbdProcess c mid = none) := by
        intro fits
        obtain ⟨mid, keys, ran, waits, carried⟩ := runs fits
        refine ⟨mid, keys, ran, waits, ?_⟩
        rcases valid c (by simp) with digit | semicolon
        · have apart := (isParameter_of_digit digit).2.2.1
          obtain ⟨goesOn, overflows⟩ := carried.digit digit (by omega)
          rw [fits_digit apart]
          refine ⟨fun both => goesOn both.2, fun large => overflows ?_⟩
          rw [not_and] at large
          exact Nat.lt_of_not_le (large fits)
        · subst semicolon
          rw [fits_semicolon]
          exact ⟨fun _ => carried.semicolon (by omega), fun large => absurd fits large⟩
      constructor
      · intro fits
        have before : Fits body := by
          rcases valid c (by simp) with digit | semicolon
          · exact ((fits_digit (isParameter_of_digit digit).2.2.1 body).mp fits).1
          · subst semicolon
            exact (fits_semicolon body).mp fits
        obtain ⟨mid, keys, ran, waits, goesOn, _⟩ := step before
        obtain ⟨next, fed, carried⟩ := goesOn fits
        refine ⟨next, keys ++ [keyINCOMPLETE], ?_, ?_, carried⟩
        · rw [processAll_append_of ran, one, fed]
          rfl
        · intro key member
          rcases List.mem_append.mp member with old | here
          · exact waits key old
          · exact List.mem_singleton.mp here
      · intro overflow
        by_cases before : Fits body
        · obtain ⟨mid, keys, ran, _, _, overflows⟩ := step before
          rw [processAll_append_of ran, one, overflows overflow]
          rfl
        · rw [processAll_append, fails before]
          rfl

/-! ### Whole sequences -/

theorem Carries.meaning (carries : Carries marker mouse lead body ctx) (final : UInt8) (len : Nat) :
    ((csiFinal final { ctx with csiLen := len }).1.mouse,
        (csiFinal final { ctx with csiLen := len }).2) =
      interpret marker ((storedParams body).take (storedCount body)) final mouse := by
  have counted : ∀ place < 8,
      ((storedParams body).take (storedCount body)).getD place 0 = (storedParams body).getD place 0 := by
    intro place within
    by_cases used : place < storedCount body
    · rw [List.getD_eq_getElem?_getD, List.getD_eq_getElem?_getD, List.getElem?_take_of_lt used]
    · have beyond : (effective body).length ≤ place := by
        unfold storedCount at used
        omega
      rw [getD_storedParams body within, slot_beyond within beyond, List.getD_eq_default]
      · rfl
      · rw [List.length_take]
        omega
  have unused : ∀ place < 8, ¬ ctx.csiParamCount > place →
      (storedParams body).getD place 0 = 0 := by
    intro place within few
    have beyond : (effective body).length ≤ place := by
      have count := carries.count
      unfold storedCount at count
      omega
    rw [getD_storedParams body within, slot_beyond within beyond]
    rfl
  unfold csiFinal interpret
  simp only [carries.csiPrefix, carries.params, counted 0 (by decide), counted 1 (by decide),
    counted 2 (by decide)]
  have col : (if ctx.csiParamCount > 1 then (storedParams body).getD 1 0 else 0) =
      (storedParams body).getD 1 0 := by
    split
    · rfl
    · exact (unused 1 (by decide) ‹_›).symm
  have row : (if ctx.csiParamCount > 2 then (storedParams body).getD 2 0 else 0) =
      (storedParams body).getD 2 0 := by
    split
    · rfl
    · exact (unused 2 (by decide) ‹_›).symm
  rw [col, row]
  split
  · rfl
  · split
    · rw [carries.mouse]
    · rw [carries.mouse]

theorem Carries.finalByte (carries : Carries marker mouse lead body ctx) {final : UInt8}
    (ends : isFinal final = true) (short : lead + body.length < csiMaxLen) :
    ∃ last key, vtkbdProcess final ctx = some (last, key) ∧ last.state = .normal ∧
      (last.mouse, key) =
        interpret marker ((storedParams body).take (storedCount body)) final mouse := by
  have len := carries.len
  rw [isFinal, Bool.and_eq_true, decide_eq_true_eq, decide_eq_true_eq, UInt8.le_iff_toNat_le,
    UInt8.le_iff_toNat_le] at ends
  change 64 ≤ final.toNat ∧ final.toNat ≤ 126 at ends
  have escape : final ≠ 27 := by
    rintro rfl
    exact absurd ends.1 (by decide)
  have control : ¬ (final < 0x20 ∨ final = 0x7F) := by
    rw [UInt8.lt_iff_toNat_lt, ← UInt8.toNat_inj]
    change ¬ (final.toNat < 32 ∨ final.toNat = 127)
    omega
  have high : ¬ final > 0x7E := by
    rw [gt_iff_lt, UInt8.lt_iff_toNat_lt]
    change ¬ 126 < final.toNat
    omega
  have notParameter : isParameter final = false := by
    rw [isParameter, Bool.and_eq_false_iff, decide_eq_false_iff_not, decide_eq_false_iff_not,
      UInt8.le_iff_toNat_le, UInt8.le_iff_toNat_le]
    right
    change ¬ final.toNat ≤ 63
    omega
  have notIntermediate : ¬ final ≤ 0x2F := by
    rw [UInt8.le_iff_toNat_le]
    change ¬ final.toNat ≤ 47
    omega
  have inside : vtkbdProcess final ctx = processCsi final ctx := by
    rw [vtkbdProcess, carries.state]
  have result : vtkbdProcess final ctx =
      some (csiFinal final { ctx with csiLen := ctx.csiLen + 1 }) := by
    rw [inside]
    simp only [processCsi, if_neg escape, if_neg (show ¬ ctx.csiLen + 1 > csiMaxLen by omega),
      if_neg control, if_neg high, notParameter, Bool.false_eq_true, ite_false,
      if_neg notIntermediate]
  exact ⟨_, _, result, csiFinal_state _ _, carries.meaning final _⟩

def sequenceStart (marker : Option UInt8) (body : Bytes) : Bytes :=
  [27, 91] ++ marker.toList ++ body

/--
The sequence is read with the parameters of the grammar: it is awaited up to its final
byte, the numbers counted are its parameters, and they are what it is interpreted with.
-/
def Reads (ctx : VtkbdCtx) (marker : Option UInt8) (body : Bytes) (final : UInt8) : Prop :=
  ∃ mid keys last key, processAll ctx (sequenceStart marker body) = some (mid, keys) ∧
    (∀ key ∈ keys, key = keyINCOMPLETE) ∧
    mid.csiParams.take mid.csiParamCount = parametersOf body ∧
    vtkbdProcess final mid = some (last, key) ∧ last.state = .normal ∧
    (last.mouse, key) = interpret (marker.getD 0) (parametersOf body) final ctx.mouse

theorem begins (range : InRange ctx) (ready : ctx.state = .normal ∨ ctx.state = .csi)
    {marker : Option UInt8} (isMarker : ∀ m ∈ marker, isPrivate m = true) :
    ∃ start keys, processAll ctx ([27, 91] ++ marker.toList) = some (start, keys) ∧
      (∀ key ∈ keys, key = keyINCOMPLETE) ∧
      Carries (marker.getD 0) ctx.mouse marker.toList.length [] start := by
  have escaped : vtkbdProcess 27 ctx = some ({ ctx with state := .esc }, keyINCOMPLETE) := by
    rcases ready with normal | inside
    · rw [vtkbdProcess, normal]
      rfl
    · rw [vtkbdProcess, inside]
      rfl
  have opened : vtkbdProcess 91 { ctx with state := .esc } =
      some ({ vtkbdResetCsi ctx with state := .csi }, keyINCOMPLETE) := rfl
  have carried : Carries 0 ctx.mouse 0 [] { vtkbdResetCsi ctx with state := .csi } := by
    have kept := ((range.process escaped).1.process opened).1
    exact ⟨kept, rfl, rfl, rfl, rfl, rfl, rfl, rfl⟩
  cases marker with
  | none =>
      refine ⟨_, [keyINCOMPLETE, keyINCOMPLETE], ?_, by simp, carried⟩
      simp only [Option.toList_none, List.append_nil, processAll, escaped, opened,
        Option.bind_some, Option.map_some]
  | some m =>
      have isMark := isMarker m rfl
      have parameter := isParameter_of_private isMark
      have marked : vtkbdProcess m { vtkbdResetCsi ctx with state := .csi } =
          some ({ vtkbdResetCsi ctx with state := .csi, csiLen := 1, csiPrefix := m },
            keyINCOMPLETE) := by
        rw [vtkbdProcess_parameter rfl (show 0 < csiMaxLen by decide) parameter]
        simp only [csiParameter, vtkbdResetCsi, gt_iff_lt, Nat.lt_irrefl, ite_false, isMark,
          Nat.zero_add, and_self, ite_true, Option.map_some]
      have kept := (carried.range.process marked).1
      refine ⟨_, [keyINCOMPLETE, keyINCOMPLETE, keyINCOMPLETE], ?_, by simp,
        ⟨kept, rfl, rfl, rfl, rfl, rfl, rfl, rfl⟩⟩
      simp only [Option.toList_some, List.cons_append, List.nil_append, processAll, escaped,
        opened, marked, Option.bind_some, Option.map_some]

theorem reads_iff (range : InRange ctx) (ready : ctx.state = .normal ∨ ctx.state = .csi)
    {marker : Option UInt8} (isMarker : ∀ m ∈ marker, isPrivate m = true)
    (valid : IsParameterString body) {final : UInt8} (ends : isFinal final = true)
    (short : marker.toList.length + body.length + 1 ≤ csiMaxLen) :
    Reads ctx marker body final ↔ Sound body := by
  obtain ⟨start, keys, ran, waits, carries⟩ := begins range ready isMarker
  obtain ⟨runs, fails⟩ := carries.feed valid (by omega)
  rw [← stored_iff valid]
  constructor
  · rintro ⟨mid, others, last, key, fed, _, params, _⟩
    rw [sequenceStart, processAll_append_of ran] at fed
    by_cases fits : Fits body
    · obtain ⟨after, more, goes, _, carried⟩ := runs fits
      rw [goes] at fed
      injection fed with fed
      injection fed with same
      rw [← same, carried.params, carried.count] at params
      exact ⟨fits, params⟩
    · rw [fails fits] at fed
      cases fed
  · rintro ⟨fits, params⟩
    obtain ⟨mid, more, goes, waitsToo, carried⟩ := runs fits
    obtain ⟨last, key, finished, normal, meaning⟩ := carried.finalByte ends (by omega)
    refine ⟨mid, keys ++ more, last, key, ?_, ?_, ?_, finished, normal, ?_⟩
    · rw [sequenceStart, processAll_append_of ran, goes]
      rfl
    · intro key member
      rcases List.mem_append.mp member with before | after
      · exact waits key before
      · exact waitsToo key after
    · rw [carried.params, carried.count]
      exact params
    · rw [← params]
      exact meaning

/-! ### Every run -/

/-- The digit takes the parameter it belongs to above what an `int` holds. -/
def Overflows (c : UInt8) (ctx : VtkbdCtx) : Prop :=
  ctx.state = .csi ∧ ctx.csiLen < csiMaxLen ∧ ctx.csiInterCount = 0 ∧ isDigitByte c = true ∧
    intMax < ctx.csiParams.getD (max 1 ctx.csiParamCount - 1) 0 * 10 + (c.toNat - 48)

theorem csiParameter_none_iff (range : InRange ctx) :
    csiParameter c ctx = none ↔ ctx.csiInterCount = 0 ∧ isDigitByte c = true ∧
      intMax < ctx.csiParams.getD (max 1 ctx.csiParamCount - 1) 0 * 10 + (c.toNat - 48) := by
  unfold csiParameter
  by_cases intermediate : ctx.csiInterCount > 0
  · rw [if_pos intermediate]
    simp only [reduceCtorEq, false_iff, not_and]
    intro none
    omega
  · have none : ctx.csiInterCount = 0 := by omega
    rw [if_neg intermediate]
    by_cases digit : isDigitByte c = true
    · obtain ⟨_, notPrivate, notSemicolon, notColon⟩ := isParameter_of_digit digit
      simp only [notPrivate, Bool.false_eq_true, and_false, ite_false, notSemicolon, notColon,
        or_self, digit, ite_true, none, true_and]
      rw [csiDigit_eq range]
      split
      case isTrue large => simp only [large]
      case isFalse small => simp only [small, reduceCtorEq]
    · simp only [digit, Bool.false_eq_true, ite_false, false_and, and_false, iff_false]
      split
      · exact Option.some_ne_none _
      · split <;> exact Option.some_ne_none _

theorem vtkbdProcess_none_iff (range : InRange ctx) (c : UInt8) :
    vtkbdProcess c ctx = none ↔ Overflows c ctx := by
  unfold vtkbdProcess Overflows
  cases state : ctx.state with
  | normal =>
      simp only [reduceCtorEq, false_and, iff_false]
      split <;> exact Option.some_ne_none _
  | esc =>
      simp only [reduceCtorEq, false_and, iff_false]
      split
      · exact Option.some_ne_none _
      · split <;> exact Option.some_ne_none _
  | escApp => simp only [reduceCtorEq, false_and]
  | csi =>
      simp only [true_and]
      by_cases short : ctx.csiLen < csiMaxLen
      · have counted : InRange { ctx with csiLen := ctx.csiLen + 1 } :=
          { range with len := fun _ => short }
        by_cases parameter : isParameter c = true
        · have inside : processCsi c ctx = vtkbdProcess c ctx := by
            rw [vtkbdProcess, state]
          rw [inside, vtkbdProcess_parameter state short parameter, Option.map_eq_none_iff,
            csiParameter_none_iff counted]
          simp only [short, true_and]
        · have notDigit : isDigitByte c ≠ true := fun digit =>
            parameter (isParameter_of_digit digit).1
          simp only [notDigit, false_and, and_false, iff_false, processCsi, parameter,
            Bool.false_eq_true, ite_false]
          split
          · exact Option.some_ne_none _
          · split
            · exact Option.some_ne_none _
            · split
              · exact Option.some_ne_none _
              · split
                · exact Option.some_ne_none _
                · split <;> exact Option.some_ne_none _
      · simp only [short, false_and, iff_false, processCsi]
        split
        · exact Option.some_ne_none _
        · rw [if_pos (by omega)]
          exact Option.some_ne_none _

/-- The parser comes back to plain characters, which stand for themselves. -/
structure Recovers (ctx : VtkbdCtx) : Prop where
  ended : ∀ c next key, vtkbdProcess c ctx = some (next, key) → key ≠ keyINCOMPLETE →
    next.state = .normal
  malformed : ctx.state = .csi → ∀ c, IsMalformed c →
    ∃ next key, vtkbdProcess c ctx = some (next, key) ∧ next.state = .normal
  overlong : ctx.state = .csi → ∀ rest last keys, 27 ∉ rest →
    csiMaxLen < ctx.csiLen + rest.length → processAll ctx rest = some (last, keys) →
    ∃ front back mid seen, rest = front ++ back ∧ processAll ctx front = some (mid, seen) ∧
      mid.state = .normal
  plain : ctx.state = .normal → ∀ c, IsPlain c → vtkbdProcess c ctx = some (ctx, c.toNat)

theorem recovers (range : InRange ctx) : Recovers ctx where
  ended := by
    intro c next key fed complete
    exact (range.process fed).2.resolve_right complete
  malformed := by
    intro inside c bad
    exact malformed_ends inside bad
  overlong := by
    intro inside rest last keys noEscape long ran
    exact overlong_ends range inside noEscape long ran
  plain := by
    intro normal c plain
    exact plain_returned normal plain

/--
In every run the indices are in range and the parser recovers from any sequence; a step
fails only by an overflow, and a control sequence that begins here is read as the
grammar says exactly if its parameter string is sound.
-/
theorem keyboard_run {bytes : Bytes} {keys : List Nat}
    (ran : processAll {} bytes = some (ctx, keys)) :
    InRange ctx ∧ Recovers ctx ∧ (∀ c, vtkbdProcess c ctx = none ↔ Overflows c ctx) ∧
      (ctx.state = .normal ∨ ctx.state = .csi →
        ∀ (marker : Option UInt8) (body : Bytes) (final : UInt8),
          (∀ m ∈ marker, isPrivate m = true) → IsParameterString body → isFinal final = true →
          marker.toList.length + body.length + 1 ≤ csiMaxLen →
          (Reads ctx marker body final ↔ Sound body)) := by
  have range := inRange_init.processAll ran
  refine ⟨range, recovers range, vtkbdProcess_none_iff range, ?_⟩
  intro ready marker body final isMarker valid ends short
  exact reads_iff range ready isMarker valid ends short

def afterDelete : VtkbdCtx where
  csiParams := [3, 0, 0, 0, 0, 0, 0, 0]
  csiParamCount := 1
  csiHasParam := true
  csiLen := 2

theorem keyboard_run_delete : InRange afterDelete ∧ Recovers afterDelete := by
  have ran : processAll {} [27, 91, 51, 126, 97] =
      some (afterDelete, [keyINCOMPLETE, keyINCOMPLETE, keyINCOMPLETE, keyDEL, 97]) := by
    decide
  exact ⟨(keyboard_run ran).1, (keyboard_run ran).2.1⟩

/--
The empty first parameter of `ESC [ ; 5 R` is lost, the ninth parameter of
`ESC [ 1;2;3;4;5;6;7;8;9 R` is added to the eighth, and 2147483648 does not fit.
-/
theorem not_reads :
    ¬ Reads {} none [59, 53] 82 ∧
      ¬ Reads {} none [49, 59, 50, 59, 51, 59, 52, 59, 53, 59, 54, 59, 55, 59, 56, 59, 57] 82 ∧
      ¬ Reads {} none [50, 49, 52, 55, 52, 56, 51, 54, 52, 56] 126 := by
  have unsound : ∀ body final, IsParameterString body → isFinal final = true →
      body.length + 1 ≤ csiMaxLen → ¬ Sound body → ¬ Reads {} none body final := by
    intro body final valid ends short bad reads
    refine bad ((reads_iff inRange_init (Or.inl rfl) ?_ valid ends ?_).mp reads)
    · intro m impossible
      cases impossible
    · simpa using short
  refine ⟨unsound _ _ ?_ rfl (by decide) (by decide), unsound _ _ ?_ rfl (by decide) (by decide),
    unsound _ _ ?_ rfl (by decide) (by decide)⟩
  all_goals unfold IsParameterString
  all_goals decide +kernel

end Pttbbs.Common.Vtkbd
