/-
Runs of the keyboard parser.

Its indices stay inside its arrays in every run, and it comes back to plain characters
after any sequence.  A control sequence is read as the grammar says exactly when its
parameter string is sound.
-/

import Pttbbs.Common.VtkbdParams

namespace Pttbbs.Common.Vtkbd

open Pttbbs.Lib

variable {ctx next last : VtkbdCtx} {bytes body : Bytes} {c final : UInt8} {key : Nat}
  {keys : List Nat}

theorem processAll_append (ctx : VtkbdCtx) (front back : Bytes) :
    processAll ctx (front ++ back) =
      (processAll ctx front).bind fun (next, keys) =>
        (processAll next back).map fun (last, others) => (last, keys ++ others) := by
  induction front generalizing ctx with
  | nil => simp [processAll]
  | cons c front ih =>
      simp only [List.cons_append, processAll, ih]
      cases vtkbdProcess c ctx with
      | none => rfl
      | some result =>
          obtain ⟨next, key⟩ := result
          simp only [Option.bind_some]
          cases processAll next front with
          | none => rfl
          | some later =>
              obtain ⟨mid, keys⟩ := later
              simp only [Option.map_some, Option.bind_some, Option.map_map]
              rfl

theorem processAll_append_of {front back : Bytes} (ran : processAll ctx front = some (next, keys)) :
    processAll ctx (front ++ back) =
      (processAll next back).map fun (last, others) => (last, keys ++ others) := by
  rw [processAll_append, ran]
  rfl

/-! ### Indices -/

structure InRange (ctx : VtkbdCtx) : Prop where
  params : ctx.csiParams.length = vtkbdMaxParams
  intermediate : ctx.csiIntermediate.length = vtkbdMaxIntermediate
  paramCount : ctx.csiParamCount ≤ vtkbdMaxParams
  interCount : ctx.csiInterCount ≤ vtkbdMaxIntermediate
  counted : ctx.csiHasParam = true → 0 < ctx.csiParamCount
  stored : ∀ param ∈ ctx.csiParams, param ≤ intMax
  len : ctx.state = .csi → ctx.csiLen ≤ csiMaxLen

theorem zeros_le : ∀ param ∈ List.replicate vtkbdMaxParams 0, param ≤ intMax := by
  intro param member
  rw [List.eq_of_mem_replicate member]
  exact Nat.zero_le _

theorem inRange_init : InRange {} := by
  refine ⟨rfl, rfl, by decide, by decide, ?_, zeros_le, ?_⟩
  all_goals intro impossible
  all_goals cases impossible

theorem csiDigit_eq (range : InRange ctx) (c : UInt8) :
    csiDigit c ctx =
      if intMax < ctx.csiParams.getD (max 1 ctx.csiParamCount - 1) 0 * 10 + (c.toNat - 48) then none
      else some { ctx with
        csiHasParam := true
        csiParamCount := max 1 ctx.csiParamCount
        csiParams := ctx.csiParams.set (max 1 ctx.csiParamCount - 1)
          (ctx.csiParams.getD (max 1 ctx.csiParamCount - 1) 0 * 10 + (c.toNat - 48)) } := by
  have bound := range.paramCount
  have counted := range.counted
  unfold csiDigit
  cases started : ctx.csiHasParam with
  | true =>
      have positive := counted started
      have same : max 1 ctx.csiParamCount = ctx.csiParamCount := by omega
      have inside : ctx.csiParamCount - 1 < vtkbdMaxParams := by omega
      simp only [ite_true, if_pos positive, inside, same]
      rw [← started]
  | false =>
      have same : (if ctx.csiParamCount = 0 then 1 else ctx.csiParamCount) =
          max 1 ctx.csiParamCount := by
        split <;> omega
      have inside : max 1 ctx.csiParamCount - 1 < vtkbdMaxParams := by
        unfold vtkbdMaxParams at bound ⊢
        omega
      have positive : max 1 ctx.csiParamCount > 0 := by omega
      simp only [Bool.false_eq_true, ite_false, same, if_pos positive, inside, ite_true]

theorem InRange.digit (range : InRange ctx) (same : csiDigit c ctx = some next) :
    InRange next ∧ next.state = ctx.state ∧ next.csiLen = ctx.csiLen := by
  rw [csiDigit_eq range] at same
  split at same
  case isTrue => cases same
  case isFalse fits =>
      injection same with same
      subst same
      have bound := range.paramCount
      refine ⟨{ range with params := ?_, paramCount := ?_, counted := ?_, stored := ?_ }, rfl, rfl⟩
      · exact List.length_set.trans range.params
      · unfold vtkbdMaxParams at bound ⊢
        exact max_le (by decide) bound
      · intro _started
        exact lt_of_lt_of_le Nat.zero_lt_one (le_max_left 1 _)
      · intro param member
        rcases List.mem_or_eq_of_mem_set member with old | here
        · exact range.stored param old
        · rw [here]
          exact Nat.le_of_not_lt fits

theorem InRange.parameter (range : InRange ctx) (same : csiParameter c ctx = some next) :
    InRange next ∧ next.state = ctx.state ∧ next.csiLen = ctx.csiLen := by
  unfold csiParameter at same
  split at same
  · cases same
    exact ⟨range, rfl, rfl⟩
  · split at same
    · cases same
      exact ⟨{ range with }, rfl, rfl⟩
    · split at same
      · injection same with same
        subst same
        have count := range.paramCount
        have counts : (if ctx.csiParamCount < vtkbdMaxParams then ctx.csiParamCount + 1
            else ctx.csiParamCount) ≤ vtkbdMaxParams := by
          split <;> omega
        refine ⟨{ range with paramCount := counts, counted := ?_ }, rfl, rfl⟩
        intro impossible
        cases impossible
      · split at same
        · exact range.digit same
        · cases same
          exact ⟨range, rfl, rfl⟩

theorem InRange.intermediateByte (range : InRange ctx) (c : UInt8) :
    InRange (csiIntermediateByte c ctx) ∧ (csiIntermediateByte c ctx).state = ctx.state ∧
      (csiIntermediateByte c ctx).csiLen = ctx.csiLen := by
  unfold csiIntermediateByte
  split
  case isTrue room =>
      refine ⟨{ range with intermediate := ?_, interCount := room }, rfl, rfl⟩
      exact List.length_set.trans range.intermediate
  case isFalse => exact ⟨range, rfl, rfl⟩

theorem csiFinal_state (c : UInt8) (ctx : VtkbdCtx) : (csiFinal c ctx).1.state = .normal := by
  unfold csiFinal
  dsimp only
  split
  · rfl
  · split <;> rfl

theorem InRange.finalByte (range : InRange ctx) (c : UInt8) : InRange (csiFinal c ctx).1 := by
  have normal : ∀ mouse, InRange { ctx with state := .normal, mouse := mouse } := by
    intro mouse
    refine { range with len := ?_ }
    intro impossible
    cases impossible
  unfold csiFinal
  dsimp only
  split
  · exact normal _
  · split <;> exact normal ctx.mouse

/-! ### Steps -/

theorem processCsi_cases (range : InRange ctx) (inside : ctx.state = .csi)
    (same : processCsi c ctx = some (next, key)) :
    (c = 27 ∧ next = { ctx with state := .esc } ∧ key = keyINCOMPLETE) ∨
      (c ≠ 27 ∧ InRange next ∧ next.state = .normal) ∨
      (c ≠ 27 ∧ InRange next ∧ next.state = .csi ∧ next.csiLen = ctx.csiLen + 1 ∧
        ctx.csiLen < csiMaxLen ∧ key = keyINCOMPLETE) := by
  unfold processCsi at same
  split at same
  case isTrue escape =>
      cases same
      exact Or.inl ⟨escape, rfl, rfl⟩
  case isFalse escape =>
      right
      have normal : ∀ len, InRange { ctx with csiLen := len, state := .normal } := by
        intro len
        refine { range with len := ?_ }
        intro impossible
        cases impossible
      simp only at same
      split at same
      · cases same
        exact Or.inl ⟨escape, normal _, rfl⟩
      · have short : ctx.csiLen < csiMaxLen := by omega
        have counted : InRange { ctx with csiLen := ctx.csiLen + 1 } :=
          { range with len := fun _ => short }
        split at same
        · cases same
          exact Or.inl ⟨escape, normal _, rfl⟩
        · split at same
          · cases same
            exact Or.inl ⟨escape, normal _, rfl⟩
          · split at same
            · obtain ⟨after, parameter, pair⟩ := Option.map_eq_some_iff.mp same
              cases pair
              have kept := counted.parameter parameter
              exact Or.inr ⟨escape, kept.1, kept.2.1.trans inside, kept.2.2, short, rfl⟩
            · split at same
              · cases same
                have kept := counted.intermediateByte c
                exact Or.inr ⟨escape, kept.1, kept.2.1.trans inside, kept.2.2, short, rfl⟩
              · injection same with same
                have ended := csiFinal_state c { ctx with csiLen := ctx.csiLen + 1 }
                have kept := counted.finalByte c
                rw [same] at ended kept
                exact Or.inl ⟨escape, kept, ended⟩

theorem InRange.process (range : InRange ctx) (same : vtkbdProcess c ctx = some (next, key)) :
    InRange next ∧ (next.state = .normal ∨ key = keyINCOMPLETE) := by
  unfold vtkbdProcess at same
  cases state : ctx.state with
  | normal =>
      simp only [state] at same
      split at same
      · cases same
        refine ⟨{ range with len := ?_ }, Or.inr rfl⟩
        intro impossible
        cases impossible
      · cases same
        exact ⟨range, Or.inl state⟩
  | esc =>
      simp only [state] at same
      split at same
      · cases same
        refine ⟨⟨rfl, rfl, Nat.zero_le _, Nat.zero_le _, ?_, zeros_le, fun _ => Nat.zero_le _⟩,
          Or.inr rfl⟩
        intro impossible
        cases impossible
      · split at same
        all_goals cases same
        all_goals refine ⟨{ range with len := ?_ }, ?_⟩
        · intro impossible
          cases impossible
        · exact Or.inr rfl
        · intro impossible
          cases impossible
        · exact Or.inl rfl
  | escApp =>
      simp only [state] at same
      cases same
      refine ⟨{ range with len := ?_ }, Or.inl rfl⟩
      intro impossible
      cases impossible
  | csi =>
      simp only [state] at same
      rcases processCsi_cases range state same with ⟨_, rfl, rfl⟩ | ⟨_, kept, ended⟩ |
        ⟨_, kept, _, _, _, more⟩
      · refine ⟨{ range with len := ?_ }, Or.inr rfl⟩
        intro impossible
        cases impossible
      · exact ⟨kept, Or.inl ended⟩
      · exact ⟨kept, Or.inr more⟩

theorem InRange.processAll (range : InRange ctx) (ran : processAll ctx bytes = some (last, keys)) :
    InRange last := by
  induction bytes generalizing ctx keys with
  | nil =>
      cases ran
      exact range
  | cons c bytes ih =>
      obtain ⟨⟨next, key⟩, first, later⟩ := Option.bind_eq_some_iff.mp ran
      obtain ⟨⟨end_, others⟩, rest, pair⟩ := Option.map_eq_some_iff.mp later
      cases pair
      exact ih (range.process first).1 rest

def IsPlain (c : UInt8) : Prop := c ≠ 27 ∧ c ≠ 0x08 ∧ c ≠ 0x7F

theorem plain_returned (normal : ctx.state = .normal) (plain : IsPlain c) :
    vtkbdProcess c ctx = some (ctx, c.toNat) := by
  unfold vtkbdProcess
  rw [normal]
  simp only [if_neg plain.1, plainKey]
  rw [if_neg (by rw [not_or]; exact plain.2)]

def IsMalformed (c : UInt8) : Prop := c ≠ 27 ∧ (c < 0x20 ∨ c = 0x7F ∨ 0x7E < c)

theorem malformed_ends (inside : ctx.state = .csi) (malformed : IsMalformed c) :
    ∃ next key, vtkbdProcess c ctx = some (next, key) ∧ next.state = .normal := by
  unfold vtkbdProcess
  rw [inside]
  simp only [processCsi, if_neg malformed.1]
  split
  · exact ⟨_, _, rfl, rfl⟩
  · split
    · exact ⟨_, _, rfl, rfl⟩
    · rcases malformed.2 with low | delete | high
      · rename_i allowed
        exact absurd (Or.inl low) allowed
      · rename_i allowed
        exact absurd (Or.inr delete) allowed
      · rw [if_pos high]
        exact ⟨_, _, rfl, rfl⟩

theorem overlong_ends (range : InRange ctx) (inside : ctx.state = .csi) (noEscape : 27 ∉ bytes)
    (long : csiMaxLen < ctx.csiLen + bytes.length)
    (ran : processAll ctx bytes = some (last, keys)) :
    ∃ front back mid seen, bytes = front ++ back ∧ processAll ctx front = some (mid, seen) ∧
      mid.state = .normal := by
  induction bytes generalizing ctx keys with
  | nil =>
      have short := range.len inside
      rw [List.length_nil] at long
      omega
  | cons c bytes ih =>
      obtain ⟨⟨next, key⟩, first, later⟩ := Option.bind_eq_some_iff.mp ran
      obtain ⟨⟨end_, others⟩, rest, pair⟩ := Option.map_eq_some_iff.mp later
      cases pair
      have escape : c ≠ 27 := fun same => noEscape (List.mem_cons.mpr (Or.inl same.symm))
      have one : processAll ctx [c] = some (next, [key]) := by
        rw [Vtkbd.processAll, first]
        rfl
      have step : processCsi c ctx = some (next, key) := by
        rw [vtkbdProcess, inside] at first
        exact first
      rcases processCsi_cases range inside step with ⟨is, _⟩ | ⟨_, kept, ended⟩ |
        ⟨_, kept, goesOn, len, _⟩
      · exact absurd is escape
      · exact ⟨[c], bytes, next, [key], rfl, one, ended⟩
      · have longer : csiMaxLen < next.csiLen + bytes.length := by
          rw [List.length_cons] at long
          omega
        obtain ⟨front, back, mid, seen, split, reached, ended⟩ := ih kept goesOn
          (fun member => noEscape (List.mem_cons_of_mem _ member)) longer rest
        refine ⟨c :: front, back, mid, key :: seen, by rw [split]; rfl, ?_, ended⟩
        simp only [Vtkbd.processAll, first, Option.bind_some, reached, Option.map_some]

end Pttbbs.Common.Vtkbd
