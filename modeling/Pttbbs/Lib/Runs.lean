/-
Runs of a step function, and runs of several threads over one shared state.

A run is a list of actions.  A condition on the state before each step is stated
along the run, and an invariant that every such step keeps holds at its end.  A
thread is served one step at a time; a schedule lists the threads in the order
they are served.  Where every thread commits in one step, the committed threads have
run one after the other.
-/

import Mathlib.Logic.Function.Iterate

namespace Pttbbs.Lib

section Run

variable {State Action : Type}

def run (step : State → Action → State) (state : State) (actions : List Action) : State :=
  actions.foldl step state

@[simp] theorem run_nil (step : State → Action → State) (state : State) :
    run step state [] = state := rfl

@[simp] theorem run_cons (step : State → Action → State) (state : State) (action : Action)
    (rest : List Action) : run step state (action :: rest) = run step (step state action) rest :=
  rfl

theorem run_append (step : State → Action → State) (state : State) (before after : List Action) :
    run step state (before ++ after) = run step (run step state before) after :=
  List.foldl_append

/-- Every action of a run meets a condition in the state it finds. -/
def StepsMeet (step : State → Action → State) (condition : State → Action → Prop) :
    State → List Action → Prop
  | _, [] => True
  | state, action :: rest =>
      condition state action ∧ StepsMeet step condition (step state action) rest

instance decidableStepsMeet (step : State → Action → State) (condition : State → Action → Prop)
    [∀ state action, Decidable (condition state action)] (state : State)
    (actions : List Action) : Decidable (StepsMeet step condition state actions) :=
  match actions with
  | [] => isTrue trivial
  | action :: rest =>
      have := decidableStepsMeet step condition (step state action) rest
      inferInstanceAs (Decidable (_ ∧ _))

/-- What holds at the start and survives every step that meets the condition
holds at the end of every run that meets it. -/
theorem invariant_run {step : State → Action → State} {condition : State → Action → Prop}
    {Invariant : State → Prop}
    (kept : ∀ state action, Invariant state → condition state action →
      Invariant (step state action))
    {state : State} {actions : List Action} (start : Invariant state)
    (meets : StepsMeet step condition state actions) : Invariant (run step state actions) := by
  induction actions generalizing state with
  | nil => exact start
  | cons action rest ih => exact ih (kept state action start meets.1) meets.2

theorem invariant_run_mem {step : State → Action → State} {condition : State → Action → Prop}
    {Invariant : State → Prop} {state : State} {actions : List Action}
    (kept : ∀ state, ∀ action ∈ actions, Invariant state → condition state action →
      Invariant (step state action))
    (start : Invariant state) (meets : StepsMeet step condition state actions) :
    Invariant (run step state actions) := by
  induction actions generalizing state with
  | nil => exact start
  | cons action rest ih =>
      refine ih (fun state next member => kept state next (List.mem_cons_of_mem _ member)) ?_
        meets.2
      exact kept state action List.mem_cons_self start meets.1

theorem invariant_run_of_step {step : State → Action → State} {Invariant : State → Prop}
    (kept : ∀ state action, Invariant state → Invariant (step state action))
    {state : State} (start : Invariant state) (actions : List Action) :
    Invariant (run step state actions) := by
  induction actions generalizing state with
  | nil => exact start
  | cons action rest ih => exact ih (kept state action start)

theorem stepsMeet_iff {step : State → Action → State} {condition : State → Action → Prop}
    {state : State} {actions : List Action} :
    StepsMeet step condition state actions ↔
      ∀ before action after, actions = before ++ action :: after →
        condition (run step state before) action := by
  induction actions generalizing state with
  | nil =>
      constructor
      · intro _meets before action after split
        simp at split
      · intro _all
        trivial
  | cons first rest ih =>
      constructor
      · rintro ⟨here, later⟩ before action after split
        cases before with
        | nil =>
            cases split
            exact here
        | cons head tail =>
            cases split
            exact ih.mp later tail action after rfl
      · intro all
        refine ⟨all [] first rest rfl, ih.mpr ?_⟩
        intro before action after split
        exact all (first :: before) action after (by rw [split]; rfl)

theorem StepsMeet.weaken {step : State → Action → State} {condition weaker : State → Action → Prop}
    {Invariant : State → Prop}
    (kept : ∀ state action, Invariant state → condition state action →
      Invariant (step state action))
    (gives : ∀ state action, Invariant state → condition state action → weaker state action)
    {state : State} {actions : List Action} (start : Invariant state)
    (meets : StepsMeet step condition state actions) : StepsMeet step weaker state actions := by
  induction actions generalizing state with
  | nil => trivial
  | cons action rest ih =>
      exact ⟨gives state action start meets.1, ih (kept state action start meets.1) meets.2⟩

theorem StepsMeet.of_append {step : State → Action → State}
    {condition : State → Action → Prop} {state : State} {before after : List Action}
    (meets : StepsMeet step condition state (before ++ after)) :
    StepsMeet step condition state before := by
  rw [stepsMeet_iff] at meets ⊢
  intro front action back split
  exact meets front action (back ++ after) (by rw [split]; simp)

def latest (wanted : Action → Bool) (actions : List Action) : Option Action :=
  (actions.filter wanted).getLast?

theorem latest_cons (wanted : Action → Bool) (action : Action) (rest : List Action) :
    latest wanted (action :: rest) =
      (latest wanted rest).or (if wanted action then some action else none) := by
  unfold latest
  by_cases matched : wanted action = true
  · rw [List.filter_cons_of_pos matched, if_pos matched, List.getLast?_cons]
    cases (rest.filter wanted).getLast? <;> rfl
  · rw [List.filter_cons_of_neg matched, if_neg matched, Option.or_none]

theorem latest_eq_none_iff (wanted : Action → Bool) (actions : List Action) :
    latest wanted actions = none ↔ ∀ action ∈ actions, wanted action = false := by
  unfold latest
  rw [List.getLast?_eq_none_iff, List.filter_eq_nil_iff]
  simp only [Bool.not_eq_true]

theorem observe_run {Value : Type} {step : State → Action → State}
    (observe : State → Option Value) {wanted : Action → Bool} {written : Action → Value}
    (write : ∀ state action, observe (step state action) =
      if wanted action then some (written action) else observe state)
    (state : State) (actions : List Action) :
    observe (actions.foldl step state) =
      ((latest wanted actions).map written).or (observe state) := by
  induction actions generalizing state with
  | nil => rfl
  | cons action rest ih =>
      rw [List.foldl_cons, ih, latest_cons, write]
      cases latest wanted rest with
      | some last => rfl
      | none =>
          by_cases matched : wanted action = true
          · rw [if_pos matched, if_pos matched]
            rfl
          · rw [if_neg matched, if_neg matched]
            rfl

end Run

section Threads

variable {Thread Shared Stage : Type} [DecidableEq Thread]

structure Threads (Thread Shared Stage : Type) where
  shared : Shared
  stages : Thread → Stage

def serve (step : Thread → Shared → Stage → Shared × Stage)
    (state : Threads Thread Shared Stage) (thread : Thread) : Threads Thread Shared Stage :=
  let after := step thread state.shared (state.stages thread)
  { shared := after.1, stages := Function.update state.stages thread after.2 }

section

variable (step : Thread → Shared → Stage → Shared × Stage) (state : Threads Thread Shared Stage)

include step state

@[simp] theorem serve_shared (thread : Thread) :
    (serve step state thread).shared = (step thread state.shared (state.stages thread)).1 := rfl

theorem serve_stages (thread other : Thread) :
    (serve step state thread).stages other =
      if other = thread then (step thread state.shared (state.stages thread)).2
      else state.stages other := by
  by_cases same : other = thread
  · subst same
    rw [if_pos rfl]
    exact Function.update_self _ _ _
  · rw [if_neg same]
    exact Function.update_of_ne same _ _

@[simp] theorem serve_stages_self (thread : Thread) :
    (serve step state thread).stages thread =
      (step thread state.shared (state.stages thread)).2 := by
  rw [serve_stages, if_pos rfl]

theorem serve_stages_of_ne {thread other : Thread} (different : other ≠ thread) :
    (serve step state thread).stages other = state.stages other := by
  rw [serve_stages, if_neg different]

end

theorem exists_step_from (step : Thread → Shared → Stage → Shared × Stage)
    {state : Threads Thread Shared Stage} {schedule : List Thread} {thread : Thread}
    (left : (run (serve step) state schedule).stages thread ≠ state.stages thread) :
    ∃ before after, schedule = before ++ thread :: after ∧
      (run (serve step) state before).stages thread = state.stages thread := by
  induction schedule generalizing state with
  | nil => exact absurd rfl left
  | cons first rest ih =>
      by_cases same : thread = first
      · subst same
        exact ⟨[], rest, rfl, rfl⟩
      · have still := serve_stages_of_ne step state same
        rw [run_cons, ← still] at left
        obtain ⟨before, after, split, stays⟩ := ih left
        exact ⟨first :: before, after, by rw [split]; rfl, by rw [run_cons, stays, still]⟩

/-- What the steps of a thread keep of its stage holds however the others are
served in between. -/
theorem stage_run (step : Thread → Shared → Stage → Shared × Stage) (thread : Thread)
    (Kept : Stage → Prop)
    (kept : ∀ shared stage, Kept stage → Kept (step thread shared stage).2)
    {state : Threads Thread Shared Stage} (schedule : List Thread)
    (start : Kept (state.stages thread)) :
    Kept ((run (serve step) state schedule).stages thread) := by
  induction schedule generalizing state with
  | nil => exact start
  | cons first rest ih =>
      apply ih
      by_cases same : thread = first
      · subst same
        rw [serve_stages_self]
        exact kept _ _ start
      · rw [serve_stages_of_ne step state same]
        exact start

theorem run_serve_unit (step : Shared → Stage → Shared × Stage) (shared : Shared) (stage : Stage)
    (count : Nat) :
    run (serve (fun _ : Unit => step)) ⟨shared, fun _ => stage⟩ (List.replicate count ()) =
      let reached := (fun state => step state.1 state.2)^[count] (shared, stage)
      ⟨reached.1, fun _ => reached.2⟩ := by
  induction count generalizing shared stage with
  | zero => rfl
  | succ count ih =>
      have first : serve (fun _ : Unit => step) ⟨shared, fun _ => stage⟩ () =
          ⟨(step shared stage).1, fun _ => (step shared stage).2⟩ := by
        unfold serve
        congr 1
      rw [List.replicate_succ, run_cons, first, ih]
      rfl

end Threads

section Serial

variable {Thread Shared Stage Value : Type} [DecidableEq Thread]

structure SerialOrder (value : Shared → Value) (committed : Stage → Bool)
    (apply : Thread → Value → Value) (start : Value) (state : Threads Thread Shared Stage)
    (order : List Thread) : Prop where
  nodup : order.Nodup
  mem : ∀ thread, thread ∈ order ↔ committed (state.stages thread) = true
  value : value state.shared = order.foldl (fun value thread => apply thread value) start

variable {value : Shared → Value} {committed : Stage → Bool} {apply : Thread → Value → Value}
  {start : Value} {state : Threads Thread Shared Stage} {order : List Thread}
  {step : Thread → Shared → Stage → Shared × Stage} {thread : Thread}

theorem SerialOrder.idle (serial : SerialOrder value committed apply start state order)
    (stage : committed (step thread state.shared (state.stages thread)).2 =
      committed (state.stages thread))
    (same : value (step thread state.shared (state.stages thread)).1 = value state.shared) :
    SerialOrder value committed apply start (serve step state thread) order := by
  refine ⟨serial.nodup, fun other => ?_, ?_⟩
  · rw [serial.mem, serve_stages]
    by_cases here : other = thread
    · rw [if_pos here, stage, here]
    · rw [if_neg here]
  · rw [serve_shared, same, serial.value]

theorem SerialOrder.commit (serial : SerialOrder value committed apply start state order)
    (before : committed (state.stages thread) = false)
    (after : committed (step thread state.shared (state.stages thread)).2 = true)
    (applied : value (step thread state.shared (state.stages thread)).1 =
      apply thread (value state.shared)) :
    SerialOrder value committed apply start (serve step state thread) (order ++ [thread]) := by
  have absent : thread ∉ order := by
    intro member
    rw [serial.mem, before] at member
    cases member
  refine ⟨?_, fun other => ?_, ?_⟩
  · rw [List.nodup_append]
    refine ⟨serial.nodup, List.nodup_cons.mpr ⟨List.not_mem_nil, List.nodup_nil⟩, ?_⟩
    intro other member last lastMember same
    rw [List.mem_singleton.mp lastMember] at same
    exact absent (same ▸ member)
  · rw [List.mem_append, serial.mem, List.mem_singleton, serve_stages]
    by_cases here : other = thread
    · rw [if_pos here, after]
      exact iff_of_true (.inr here) rfl
    · rw [if_neg here]
      exact or_iff_left here
  · rw [serve_shared, applied, serial.value, List.foldl_append]
    rfl

end Serial

end Pttbbs.Lib
