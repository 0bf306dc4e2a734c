/-
The balance of a user, in shared memory and in the password file.

`deumoney` adds to the shared balance by a compare-and-swap loop and then writes
the shared balance into the file; an update of the user's record writes the
shared balance along with the whole record.  Both read the balance and write the
file in separate steps, so a balance that was read may be written after another
one.
-/

import Mathlib.Algebra.Order.Group.Int
import Mathlib.Data.Fintype.Basic
import Mathlib.Tactic.Linarith
import Pttbbs.Lib.Runs

namespace Pttbbs.Common.Money

open Pttbbs.Lib

def intMax : Int := 2147483647
def intMin : Int := -2147483648

/-- An `int` after an operation that may have overflowed. -/
def wrap (value : Int) : Int := Int.bmod value 4294967296

theorem wrap_of_fits {value : Int} (low : intMin ≤ value) (high : value ≤ intMax) :
    wrap value = value := by
  unfold wrap intMin intMax at *
  rw [Int.bmod_def]
  omega

def newBalance (old money : Int) : Int :=
  if money < 0 ∧ old < wrap (-money) then 0 else wrap (old + money)

def Fits (old money : Int) : Prop :=
  (money < 0 → -money ≤ intMax) ∧ (¬ (money < 0 ∧ old < -money) → old + money ≤ intMax)

section Calls

variable {Fields : Type} [DecidableEq Fields]

structure Record (Fields : Type) where
  money : Int
  fields : Fields
deriving DecidableEq

inductive Call (Fields : Type) where
  | deumoney (money : Int)
  /-- A record update; `always` where the record is written even if unchanged. -/
  | update (change : Fields → Fields) (always : Bool)

inductive Stage (Fields : Type) where
  | start
  /-- The balance that was loaded and the one to put in its place. -/
  | loaded (old new : Int)
  | added
  /-- The balance that `passwd_update_money` is going to write. -/
  | moneyRead (money : Int)
  | recordRead (fields : Fields)
  | recordReady (fields : Fields) (money : Int)
  | done
deriving DecidableEq

def Stage.isAdded : Stage Fields → Bool
  | .added | .moneyRead _ | .done => true
  | _ => false

structure Memory (Fields : Type) where
  shared : Int
  file : Record Fields

def step (call : Call Fields) (memory : Memory Fields) : Stage Fields → Memory Fields × Stage Fields
  | .start =>
      match call with
      | .deumoney money => (memory, .loaded memory.shared (newBalance memory.shared money))
      | .update _ _ => (memory, .recordRead memory.file.fields)
  | .loaded old new =>
      if memory.shared = old then ({ memory with shared := new }, .added) else (memory, .start)
  | .added => (memory, .moneyRead memory.shared)
  | .moneyRead money => ({ memory with file := { memory.file with money } }, .done)
  | .recordRead fields =>
      match call with
      | .deumoney _ => (memory, .done)
      | .update change always =>
          if always || change fields ≠ fields then
            (memory, .recordReady (change fields) memory.shared)
          else (memory, .done)
  | .recordReady fields money => ({ memory with file := { money, fields } }, .done)
  | .done => (memory, .done)

def Call.credit : Call Fields → Int → Int
  | .deumoney money, balance => max 0 (balance + money)
  | .update _ _, balance => balance

end Calls

/-! ### Runs -/

section Runs

variable {Fields : Type} [DecidableEq Fields] {Process : Type} [DecidableEq Process]

abbrev Balances (Process Fields : Type) := Threads Process (Memory Fields) (Stage Fields)

/-- The file has been loaded into shared memory and no call has begun. -/
def Balances.start (Process : Type) (balance : Int) (fields : Fields) : Balances Process Fields :=
  { shared := { shared := balance, file := { money := balance, fields } }
    stages := fun _ => .start }

def moneyServe (calls : Process → Call Fields) :
    Balances Process Fields → Process → Balances Process Fields :=
  serve fun process => step (calls process)

def Stage.held? : Stage Fields → Option Int
  | .moneyRead money => some money
  | .recordReady _ money => some money
  | _ => none

/-- No overflow, and nothing is added while a call stands between its read of the
balance and its write. -/
def Undisturbed (calls : Process → Call Fields) (state : Balances Process Fields)
    (process : Process) : Prop :=
  match calls process, state.stages process with
  | .deumoney money, .start => Fits state.shared.shared money
  | .deumoney _, .loaded old _ =>
      state.shared.shared = old → ∀ other, (state.stages other).held? = none
  | _, _ => True

instance (old money : Int) : Decidable (Fits old money) := inferInstanceAs (Decidable (_ ∧ _))

instance [Fintype Process] (calls : Process → Call Fields) (state : Balances Process Fields)
    (process : Process) : Decidable (Undisturbed calls state process) := by
  unfold Undisturbed
  split <;> infer_instance

theorem newBalance_of_fits {old money : Int} (nonneg : 0 ≤ old) (fits : Fits old money) :
    newBalance old money = max 0 (old + money) ∧ max 0 (old + money) ≤ intMax := by
  obtain ⟨negation, addition⟩ := fits
  unfold newBalance
  by_cases negative : money < 0
  · have exact' : wrap (-money) = -money :=
      wrap_of_fits (by unfold intMin; omega) (negation negative)
    rw [exact']
    by_cases below : old < -money
    · rw [if_pos ⟨negative, below⟩]
      unfold intMax
      omega
    · have high := addition (fun both => below both.2)
      rw [if_neg (fun both => below both.2), wrap_of_fits (by unfold intMin; omega) high]
      omega
  · have high := addition (fun both => negative both.1)
    rw [if_neg (fun both => negative both.1), wrap_of_fits (by unfold intMin; omega) high]
    omega

def Stage.Of (stage : Stage Fields) : Call Fields → Prop
  | .deumoney money =>
      match stage with
      | .loaded old new => new = max 0 (old + money) ∧ new ≤ intMax
      | .recordRead _ | .recordReady _ _ => False
      | _ => True
  | .update _ _ =>
      match stage with
      | .start | .recordRead _ | .recordReady _ _ | .done => True
      | _ => False

def Stage.owes : Stage Fields → Prop
  | .added | .moneyRead _ => True
  | _ => False

structure Kept (calls : Process → Call Fields) (balance : Int) (state : Balances Process Fields) :
    Prop where
  order : ∃ order : List Process, SerialOrder Memory.shared Stage.isAdded
    (fun process => (calls process).credit) balance state order
  nonneg : 0 ≤ state.shared.shared
  fits : state.shared.shared ≤ intMax
  held : ∀ process money, (state.stages process).held? = some money → money = state.shared.shared
  file : state.shared.file.money = state.shared.shared ∨
    ∃ process, (state.stages process).owes
  stages : ∀ process, (state.stages process).Of (calls process)

omit [DecidableEq Fields] [DecidableEq Process] in
theorem kept_start (calls : Process → Call Fields) {balance : Int} (nonneg : 0 ≤ balance)
    (fits : balance ≤ intMax) (fields : Fields) :
    Kept calls balance (Balances.start Process balance fields) where
  order := by
    refine ⟨[], List.nodup_nil, fun process => ?_, rfl⟩
    exact iff_of_false List.not_mem_nil nofun
  nonneg := nonneg
  fits := fits
  held := nofun
  file := .inl rfl
  stages := by
    intro process
    cases calls process <;> trivial

variable {calls : Process → Call Fields} {balance : Int} {state : Balances Process Fields}
  {process : Process}

theorem Kept.of_same (kept : Kept calls balance state) {memory : Memory Fields}
    {stage : Stage Fields}
    (moved : step (calls process) state.shared (state.stages process) = (memory, stage))
    (same : memory.shared = state.shared.shared)
    (order : ∃ order : List Process, SerialOrder Memory.shared Stage.isAdded
      (fun process => (calls process).credit) balance (moneyServe calls state process) order)
    (held : ∀ money, stage.held? = some money → money = state.shared.shared)
    (file : memory.file.money = state.shared.shared ∨
      memory.file = state.shared.file ∧ ((state.stages process).owes → stage.owes))
    (stageOf : stage.Of (calls process)) : Kept calls balance (moneyServe calls state process) := by
  have sharedAfter : (moneyServe calls state process).shared = memory := by
    rw [moneyServe, serve_shared, moved]
  have stagesAfter : ∀ other, (moneyServe calls state process).stages other =
      if other = process then stage else state.stages other := by
    intro other
    rw [moneyServe, serve_stages, moved]
  refine ⟨order, ?_, ?_, ?_, ?_, ?_⟩
  · rw [sharedAfter, same]
    exact kept.nonneg
  · rw [sharedAfter, same]
    exact kept.fits
  · intro other money holds
    rw [sharedAfter, same]
    rw [stagesAfter] at holds
    by_cases here : other = process
    · rw [if_pos here] at holds
      exact held money holds
    · rw [if_neg here] at holds
      exact kept.held other money holds
  · rw [sharedAfter, same]
    rcases file with written | ⟨unchanged, owes⟩
    · exact .inl written
    · rw [unchanged]
      refine kept.file.imp_right ?_
      rintro ⟨other, other'⟩
      refine ⟨other, ?_⟩
      rw [stagesAfter]
      by_cases here : other = process
      · rw [if_pos here]
        exact owes (here ▸ other')
      · rw [if_neg here]
        exact other'
  · intro other
    rw [stagesAfter]
    by_cases here : other = process
    · rw [if_pos here, here]
      exact stageOf
    · rw [if_neg here]
      exact kept.stages other

theorem Kept.add (kept : Kept calls balance state) {money old new : Int}
    (call : calls process = .deumoney money) (stage : state.stages process = .loaded old new)
    (unchanged : state.shared.shared = old)
    (alone : ∀ other, (state.stages other).held? = none) :
    Kept calls balance (moneyServe calls state process) := by
  have moved : step (calls process) state.shared (state.stages process) =
      ({ state.shared with shared := new }, .added) := by
    rw [stage, step, if_pos unchanged]
  have computed := kept.stages process
  rw [stage, call] at computed
  obtain ⟨value, fits⟩ : new = max 0 (old + money) ∧ new ≤ intMax := computed
  have sharedAfter : (moneyServe calls state process).shared =
      { state.shared with shared := new } := by
    rw [moneyServe, serve_shared, moved]
  have stagesAfter : ∀ other, (moneyServe calls state process).stages other =
      if other = process then .added else state.stages other := by
    intro other
    rw [moneyServe, serve_stages, moved]
  refine ⟨?_, ?_, ?_, ?_, .inr ⟨process, ?_⟩, ?_⟩
  · obtain ⟨order, serial⟩ := kept.order
    refine ⟨order ++ [process], serial.commit ?_ ?_ ?_⟩
    · rw [stage]
      rfl
    · rw [moved]
      rfl
    · rw [moved, call]
      exact value.trans (by rw [unchanged]; rfl)
  · rw [sharedAfter]
    change 0 ≤ new
    omega
  · rw [sharedAfter]
    exact fits
  · intro other money holds
    rw [stagesAfter] at holds
    by_cases here : other = process
    · rw [if_pos here] at holds
      cases holds
    · rw [if_neg here, alone other] at holds
      cases holds
  · rw [stagesAfter, if_pos rfl]
    trivial
  · intro other
    rw [stagesAfter]
    by_cases here : other = process
    · rw [if_pos here, here, call]
      trivial
    · rw [if_neg here]
      exact kept.stages other

theorem kept_serve (kept : Kept calls balance state) (undisturbed : Undisturbed calls state process) :
    Kept calls balance (moneyServe calls state process) := by
  obtain ⟨order, serial⟩ := kept.order
  have form := kept.stages process
  unfold Undisturbed at undisturbed
  -- A step that leaves the balance alone and finishes nothing.
  have idle : ∀ {memory : Memory Fields} {stage : Stage Fields},
      step (calls process) state.shared (state.stages process) = (memory, stage) →
      memory.shared = state.shared.shared →
      stage.isAdded = (state.stages process).isAdded →
      ∃ order : List Process, SerialOrder Memory.shared Stage.isAdded
        (fun process => (calls process).credit) balance (moneyServe calls state process) order := by
    intro memory stage moved same added
    exact ⟨order, serial.idle (by rw [moved, added]) (by rw [moved, same])⟩
  cases call : calls process with
  | deumoney money =>
      rw [call] at form undisturbed
      cases stage : state.stages process with
      | start =>
          rw [stage] at undisturbed
          have computed := newBalance_of_fits kept.nonneg undisturbed
          have moved : step (calls process) state.shared (state.stages process) =
              (state.shared, .loaded state.shared.shared
                (newBalance state.shared.shared money)) := by
            rw [stage, call]
            rfl
          refine kept.of_same moved rfl (idle moved rfl (by rw [stage]; rfl)) nofun
            (.inr ⟨rfl, by rw [stage]; exact nofun⟩) ?_
          rw [call]
          exact ⟨computed.1, computed.1 ▸ computed.2⟩
      | loaded old new =>
          rw [stage] at undisturbed
          by_cases unchanged : state.shared.shared = old
          · exact kept.add call stage unchanged (undisturbed unchanged)
          · have moved : step (calls process) state.shared (state.stages process) =
                (state.shared, .start) := by
              rw [stage, step, if_neg unchanged]
            refine kept.of_same moved rfl (idle moved rfl (by rw [stage]; rfl)) nofun
              (.inr ⟨rfl, by rw [stage]; exact nofun⟩) ?_
            rw [call]
            trivial
      | added =>
          have moved : step (calls process) state.shared (state.stages process) =
              (state.shared, .moneyRead state.shared.shared) := by
            rw [stage]
            rfl
          refine kept.of_same moved rfl (idle moved rfl (by rw [stage]; rfl)) ?_
            (.inr ⟨rfl, fun _ => trivial⟩) ?_
          · intro money holds
            exact (Option.some.inj holds).symm
          · rw [call]
            trivial
      | moneyRead held =>
          have moved : step (calls process) state.shared (state.stages process) =
              ({ state.shared with file := { state.shared.file with money := held } }, .done) := by
            rw [stage]
            rfl
          have current : held = state.shared.shared := kept.held process held (by rw [stage]; rfl)
          refine kept.of_same moved rfl (idle moved rfl (by rw [stage]; rfl)) nofun
            (.inl current) ?_
          rw [call]
          trivial
      | recordRead fields =>
          rw [stage] at form
          exact form.elim
      | recordReady fields held =>
          rw [stage] at form
          exact form.elim
      | done =>
          have moved : step (calls process) state.shared (state.stages process) =
              (state.shared, .done) := by
            rw [stage]
            rfl
          refine kept.of_same moved rfl (idle moved rfl (by rw [stage])) nofun
            (.inr ⟨rfl, by rw [stage]; exact nofun⟩) ?_
          rw [call]
          trivial
  | update change always =>
      rw [call] at form
      -- A record update that is over commits without adding anything.
      have commit : ∀ {memory : Memory Fields},
          step (calls process) state.shared (state.stages process) = (memory, .done) →
          memory.shared = state.shared.shared →
          (state.stages process).isAdded = false →
          ∃ order : List Process, SerialOrder Memory.shared Stage.isAdded
            (fun process => (calls process).credit) balance (moneyServe calls state process)
            order := by
        intro memory moved same added
        refine ⟨order ++ [process], serial.commit added ?_ ?_⟩
        · rw [moved]
          rfl
        · rw [moved, same, call]
          rfl
      have finished : (Stage.done : Stage Fields).Of (calls process) := by
        rw [call]
        trivial
      cases stage : state.stages process with
      | start =>
          have moved : step (calls process) state.shared (state.stages process) =
              (state.shared, .recordRead state.shared.file.fields) := by
            rw [stage, call]
            rfl
          refine kept.of_same moved rfl (idle moved rfl (by rw [stage]; rfl)) nofun
            (.inr ⟨rfl, by rw [stage]; exact nofun⟩) ?_
          rw [call]
          trivial
      | recordRead fields =>
          by_cases changed : (always || decide (change fields ≠ fields)) = true
          · have moved : step (calls process) state.shared (state.stages process) =
                (state.shared, .recordReady (change fields) state.shared.shared) := by
              rw [stage, call]
              simp only [step, if_pos changed]
            refine kept.of_same moved rfl (idle moved rfl (by rw [stage]; rfl)) ?_
              (.inr ⟨rfl, by rw [stage]; exact nofun⟩) ?_
            · intro money holds
              exact (Option.some.inj holds).symm
            · rw [call]
              trivial
          · have moved : step (calls process) state.shared (state.stages process) =
                (state.shared, .done) := by
              rw [stage, call]
              simp only [step, if_neg changed]
            exact kept.of_same moved rfl (commit moved rfl (by rw [stage]; rfl)) nofun
              (.inr ⟨rfl, by rw [stage]; exact nofun⟩) finished
      | recordReady fields held =>
          have moved : step (calls process) state.shared (state.stages process) =
              ({ state.shared with file := { money := held, fields } }, .done) := by
            rw [stage]
            rfl
          have current : held = state.shared.shared := kept.held process held (by rw [stage]; rfl)
          exact kept.of_same moved rfl (commit moved rfl (by rw [stage]; rfl)) nofun
            (.inl current) finished
      | done =>
          have moved : step (calls process) state.shared (state.stages process) =
              (state.shared, .done) := by
            rw [stage]
            rfl
          exact kept.of_same moved rfl (idle moved rfl (by rw [stage])) nofun
            (.inr ⟨rfl, by rw [stage]; exact nofun⟩) finished
      | loaded old new =>
          rw [stage] at form
          exact form.elim
      | added =>
          rw [stage] at form
          exact form.elim
      | moneyRead held =>
          rw [stage] at form
          exact form.elim

/-- Without overflow, and while nothing is added between a read of the balance and the
write that follows, the shared balance is what the calls make of it in some order and
the file follows it. -/
theorem money_run (calls : Process → Call Fields) (balance : Int) (nonneg : 0 ≤ balance)
    (fits : balance ≤ intMax) (fields : Fields) (schedule : List Process)
    (undisturbed : StepsMeet (moneyServe calls) (Undisturbed calls)
      (Balances.start Process balance fields) schedule) :
    let final := run (moneyServe calls) (Balances.start Process balance fields) schedule
    (∃ order : List Process, order.Nodup ∧
      (∀ process, process ∈ order ↔ (final.stages process).isAdded = true) ∧
      final.shared.shared =
        order.foldl (fun balance process => (calls process).credit balance) balance) ∧
    0 ≤ final.shared.shared ∧ final.shared.shared ≤ intMax ∧
    ((∀ process, final.stages process = .done) →
      final.shared.file.money = final.shared.shared) := by
  have keeps : ∀ (state : Balances Process Fields) (process : Process), Kept calls balance state →
      Undisturbed calls state process → Kept calls balance (moneyServe calls state process) :=
    fun _state _process kept undisturbed => kept_serve kept undisturbed
  have kept : Kept calls balance
      (run (moneyServe calls) (Balances.start Process balance fields) schedule) :=
    invariant_run keeps (kept_start calls nonneg fits fields) undisturbed
  obtain ⟨order, serial⟩ := kept.order
  refine ⟨⟨order, serial.nodup, serial.mem, serial.value⟩, kept.nonneg, kept.fits, ?_⟩
  intro finished
  rcases kept.file with same | ⟨process, owes⟩
  · exact same
  · rw [finished process] at owes
    exact owes.elim

end Runs

def twoDeposits (process : Bool) : Call Unit := .deumoney (if process then 5 else 10)

/-- One after the other. -/
theorem money_run_in_turn :
    let final := run (moneyServe twoDeposits) (Balances.start Bool 100 ())
      [false, false, false, false, true, true, true, true]
    final.shared.shared = 115 ∧ final.shared.file.money = final.shared.shared := by
  have kept := money_run twoDeposits 100 (by decide) (by decide) ()
    [false, false, false, false, true, true, true, true] (by decide)
  exact ⟨by decide, kept.2.2.2 (by decide)⟩

def lastWrites : List Bool := [false, false, false, true, true, true, true, false]

/-- The first deposit has read its balance when the second is made, and writes it over
the balance of the second; and the amount `INT_MIN` takes a balance below zero. -/
theorem deposit_lost_in_file :
    let deposits := run (moneyServe twoDeposits) (Balances.start Bool 100 ()) lastWrites
    let least := run (moneyServe fun _ : Unit => (Call.deumoney intMin : Call Unit))
      (Balances.start Unit 100 ()) [(), (), (), ()]
    (∀ process, deposits.stages process = .done) ∧ deposits.shared.shared = 115 ∧
      deposits.shared.file.money = 110 ∧ least.shared.shared < 0 := by
  decide

end Pttbbs.Common.Money
