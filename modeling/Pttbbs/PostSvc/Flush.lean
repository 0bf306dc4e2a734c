/-
A flush of the pending counts, step by step and with failures.

`FlushDirtyDeltas` takes the pending changes out of memory before it opens the
transaction that adds them to the rows, and returns early when a step of the
transaction fails.  Votes and comments that arrive meanwhile go to the new map.
-/

import Pttbbs.Lib.Runs
import Pttbbs.PostSvc.Engine

namespace Pttbbs.PostSvc

open Pttbbs.Lib

/-- Which steps of the transaction succeed; `exec` tells it for the update of each
post. -/
structure FlushOutcome where
  begin : Bool
  prepare : Bool
  exec : UInt64 → Bool
  commit : Bool

inductive FlushStage where
  | start
  | taken (toFlush : List (UInt64 × PostDelta))
  | begun (toFlush : List (UInt64 × PostDelta))
  /-- The rows as the open transaction sees them. -/
  | updating (toFlush : List (UInt64 × PostDelta)) (metaDB : MetaDB)
  | done

/-- One step of `FlushDirtyDeltas`.  The updates of different posts commute, so they
are made in the order of the ids. -/
def flushStep (outcome : FlushOutcome) (engine : Engine) : FlushStage → Engine × FlushStage
  | .start =>
      if engine.dirtyDeltas.entries = [] then (engine, .done)
      else ({ engine with dirtyDeltas := OrderedMap.empty }, .taken engine.dirtyDeltas.entries)
  | .taken toFlush => (engine, if outcome.begin then .begun toFlush else .done)
  | .begun toFlush =>
      (engine, if outcome.prepare then .updating toFlush engine.metaDB else .done)
  | .updating ((postID, delta) :: rest) metaDB =>
      (engine, .updating rest
        (if outcome.exec postID then metaDB.updatePost postID (Engine.applyDelta delta)
          else metaDB))
  | .updating [] metaDB =>
      (if outcome.commit then { engine with metaDB := metaDB } else engine, .done)
  | .done => (engine, .done)

/-- The flush goes on, or a vote or a comment registers its change. -/
inductive FlushEvent where
  | flush
  | add (postID : UInt64) (change : PostDelta)

structure Flushing where
  engine : Engine
  stage : FlushStage

def serveFlush (outcome : FlushOutcome) (state : Flushing) : FlushEvent → Flushing
  | .flush =>
      let after := flushStep outcome state.engine state.stage
      { engine := after.1, stage := after.2 }
  | .add postID change => { state with engine := state.engine.addDelta postID change }

/-! ### Counts -/

def PostDelta.plus (left right : PostDelta) : PostDelta :=
  { upvotes := left.upvotes + right.upvotes
    downvotes := left.downvotes + right.downvotes
    comments := left.comments + right.comments }

theorem PostDelta.ext_iff {left right : PostDelta} : left = right ↔
    left.upvotes = right.upvotes ∧ left.downvotes = right.downvotes ∧
      left.comments = right.comments := by
  cases left
  cases right
  simp

theorem PostDelta.plus_assoc (first second third : PostDelta) :
    (first.plus second).plus third = first.plus (second.plus third) := by
  rw [PostDelta.ext_iff]
  exact ⟨Int.add_assoc _ _ _, Int.add_assoc _ _ _, Int.add_assoc _ _ _⟩

@[simp] theorem PostDelta.plus_zero (delta : PostDelta) : delta.plus {} = delta := by
  rw [PostDelta.ext_iff]
  exact ⟨Int.add_zero _, Int.add_zero _, Int.add_zero _⟩

def PostRow.counts (row : PostRow) : PostDelta :=
  { upvotes := row.upvotes, downvotes := row.downvotes, comments := row.numComments }

namespace Engine

def pending (engine : Engine) (postID : UInt64) : PostDelta :=
  (engine.dirtyDeltas.get? postID).getD {}

/-- What a reader gets for a post: the counters of its row and what is pending. -/
def counts (engine : Engine) (postID : UInt64) : Option PostDelta :=
  (engine.metaDB.posts.get? postID).map fun row => row.counts.plus (engine.pending postID)

end Engine

def added (postID : UInt64) : List FlushEvent → PostDelta
  | [] => {}
  | .flush :: rest => added postID rest
  | .add other change :: rest =>
      if other = postID then change.plus (added postID rest) else added postID rest

@[simp] theorem counts_applyDelta (delta : PostDelta) (row : PostRow) :
    (Engine.applyDelta delta row).counts = row.counts.plus delta := rfl

theorem pending_addDelta (engine : Engine) (other postID : UInt64) (change : PostDelta) :
    (engine.addDelta other change).pending postID =
      if other = postID then (engine.pending postID).plus change else engine.pending postID := by
  unfold Engine.pending Engine.addDelta
  by_cases same : other = postID
  · subst same
    simp [OrderedMap.get?_set_self, PostDelta.plus]
  · rw [if_neg same, OrderedMap.get?_set_of_ne _ _ (Ne.symm same)]

/-! ### One flush -/

section Run

variable {outcome : FlushOutcome}

def FlushOutcome.lands (outcome : FlushOutcome) (postID : UInt64) : Bool :=
  outcome.begin && outcome.prepare && outcome.exec postID && outcome.commit

def deltaIn (postID : UInt64) (toFlush : List (UInt64 × PostDelta)) : PostDelta :=
  (OrderedMap.lookup postID toFlush).getD {}

/-- Where the change of a post stands: `delta` was pending when the flush began, and
`later` has been added since. -/
def Placed (outcome : FlushOutcome) (postID : UInt64) (row : PostRow) (delta : PostDelta)
    (state : Flushing) (later : PostDelta) : Prop :=
  state.engine.pending postID = later ∧
  match state.stage with
  | .start => False
  | .taken toFlush | .begun toFlush =>
      state.engine.metaDB.posts.get? postID = some row ∧ deltaIn postID toFlush = delta ∧
        (toFlush.map Prod.fst).Nodup ∧ (state.stage = .begun toFlush → outcome.begin = true)
  | .updating toFlush metaDB =>
      outcome.begin = true ∧ outcome.prepare = true ∧
        state.engine.metaDB.posts.get? postID = some row ∧ (toFlush.map Prod.fst).Nodup ∧
        ∃ seen, metaDB.posts.get? postID = some seen ∧
          seen.counts.plus (if outcome.exec postID then deltaIn postID toFlush else {}) =
            row.counts.plus (if outcome.exec postID then delta else {})
  | .done =>
      ∃ after, state.engine.metaDB.posts.get? postID = some after ∧
        after.counts = row.counts.plus (if outcome.lands postID then delta else {})

theorem deltaIn_cons (postID other : UInt64) (delta : PostDelta)
    (rest : List (UInt64 × PostDelta)) :
    deltaIn postID ((other, delta) :: rest) =
      if other = postID then delta else deltaIn postID rest := by
  unfold deltaIn
  by_cases same : other = postID
  · simp [OrderedMap.lookup, same]
  · simp [OrderedMap.lookup, same]

theorem deltaIn_of_not_mem {postID : UInt64} {toFlush : List (UInt64 × PostDelta)}
    (absent : postID ∉ toFlush.map Prod.fst) : deltaIn postID toFlush = {} := by
  induction toFlush with
  | nil => rfl
  | cons entry rest ih =>
      obtain ⟨other, delta⟩ := entry
      rw [List.map_cons, List.mem_cons, not_or] at absent
      rw [deltaIn_cons, if_neg (Ne.symm absent.1)]
      exact ih absent.2

theorem placed_flush {postID : UInt64} {row : PostRow} {delta later : PostDelta}
    {state : Flushing} (placed : Placed outcome postID row delta state later) :
    Placed outcome postID row delta (serveFlush outcome state .flush) later := by
  obtain ⟨engine, stage⟩ := state
  obtain ⟨pending, placed⟩ := placed
  cases stage with
  | start => exact absurd placed id
  | taken toFlush =>
      obtain ⟨here, taken, nodup, _begun⟩ := placed
      cases began : outcome.begin with
      | true =>
          simp only [serveFlush, flushStep, began, if_true]
          exact ⟨pending, here, taken, nodup, fun _ => began⟩
      | false =>
          simp only [serveFlush, flushStep, began]
          refine ⟨pending, row, here, ?_⟩
          simp [FlushOutcome.lands, began]
  | begun toFlush =>
      obtain ⟨here, taken, nodup, begun⟩ := placed
      have began := begun rfl
      cases prepared : outcome.prepare with
      | true =>
          simp only [serveFlush, flushStep, prepared, if_true]
          refine ⟨pending, began, prepared, here, nodup, row, here, ?_⟩
          rw [taken]
      | false =>
          simp only [serveFlush, flushStep, prepared]
          refine ⟨pending, row, here, ?_⟩
          simp [FlushOutcome.lands, prepared]
  | updating toFlush metaDB =>
      obtain ⟨began, prepared, here, nodup, seen, visible, sum⟩ := placed
      cases toFlush with
      | nil =>
          cases committed : outcome.commit with
          | true =>
              simp only [serveFlush, flushStep, committed, if_true]
              refine ⟨pending, seen, visible, ?_⟩
              simpa [FlushOutcome.lands, began, prepared, committed, deltaIn,
                OrderedMap.lookup] using sum
          | false =>
              simp only [serveFlush, flushStep, committed]
              refine ⟨pending, row, here, ?_⟩
              simp [FlushOutcome.lands, committed]
      | cons entry rest =>
          obtain ⟨other, change⟩ := entry
          rw [List.map_cons, List.nodup_cons] at nodup
          rw [deltaIn_cons] at sum
          refine ⟨pending, began, prepared, here, nodup.2, ?_⟩
          by_cases same : other = postID
          · subst same
            rw [deltaIn_of_not_mem nodup.1]
            rw [if_pos rfl] at sum
            cases done : outcome.exec other with
            | true =>
                rw [done, if_pos rfl] at sum
                refine ⟨Engine.applyDelta change seen, ?_, ?_⟩
                · simp [MetaDB.updatePost, visible]
                · simpa [done] using sum
            | false =>
                rw [done] at sum
                exact ⟨seen, visible, by simpa [done] using sum⟩
          · rw [if_neg same] at sum
            refine ⟨seen, ?_, sum⟩
            split
            · rw [MetaDB.updatePost, OrderedMap.get?_modify_of_ne _ _ (Ne.symm same)]
              exact visible
            · exact visible
  | done => exact ⟨pending, placed⟩

theorem placed_add {postID other : UInt64} {row : PostRow} {delta later change : PostDelta}
    {state : Flushing} (placed : Placed outcome postID row delta state later) :
    Placed outcome postID row delta (serveFlush outcome state (.add other change))
      (if other = postID then later.plus change else later) := by
  obtain ⟨engine, stage⟩ := state
  obtain ⟨pending, placed⟩ := placed
  refine ⟨?_, placed⟩
  change (engine.addDelta other change).pending postID = _
  rw [pending_addDelta]
  change engine.pending postID = later at pending
  rw [pending]

theorem placed_run {postID : UInt64} {row : PostRow} {delta : PostDelta}
    (events : List FlushEvent) {later : PostDelta} {state : Flushing}
    (placed : Placed outcome postID row delta state later) :
    Placed outcome postID row delta (run (serveFlush outcome) state events)
      (later.plus (added postID events)) := by
  induction events generalizing later state with
  | nil =>
      rw [added, PostDelta.plus_zero]
      exact placed
  | cons event rest ih =>
      cases event with
      | flush => exact ih (placed_flush placed)
      | add other change =>
          have moved := @placed_add outcome postID other row delta later change state placed
          have next := ih moved
          by_cases same : other = postID
          · rw [if_pos same, PostDelta.plus_assoc] at next
            rw [added, if_pos same]
            exact next
          · rw [if_neg same] at next
            rw [added, if_neg same]
            exact next

theorem pending_start (engine : Engine) (before : List (UInt64 × PostDelta)) (postID : UInt64) :
    run (serveFlush outcome) ⟨engine, .start⟩
        (before.map fun change => .add change.1 change.2) =
      ⟨before.foldl (fun engine change => engine.addDelta change.1 change.2) engine, .start⟩ ∧
    (before.foldl (fun engine change => engine.addDelta change.1 change.2) engine).metaDB =
      engine.metaDB ∧
    (before.foldl (fun engine change => engine.addDelta change.1 change.2) engine).pending
        postID =
      (engine.pending postID).plus
        (added postID (before.map fun change => .add change.1 change.2)) := by
  induction before generalizing engine with
  | nil => exact ⟨rfl, rfl, (PostDelta.plus_zero _).symm⟩
  | cons change rest ih =>
      obtain ⟨state, metaDB, pending⟩ := ih (engine.addDelta change.1 change.2)
      refine ⟨state, metaDB, pending.trans ?_⟩
      rw [pending_addDelta, List.map_cons, added]
      split
      · rw [PostDelta.plus_assoc]
      · rfl

theorem placed_start {engine : Engine} {postID : UInt64} {row : PostRow}
    (here : engine.metaDB.posts.get? postID = some row) :
    Placed outcome postID row (engine.pending postID)
      (serveFlush outcome ⟨engine, .start⟩ .flush) {} := by
  by_cases none : engine.dirtyDeltas.entries = []
  · simp only [serveFlush, flushStep, if_pos none]
    have nothing : engine.pending postID = {} := by
      simp [Engine.pending, OrderedMap.get?, none, OrderedMap.lookup]
    exact ⟨nothing, row, here, by simp [nothing]⟩
  · simp only [serveFlush, flushStep, if_neg none]
    refine ⟨rfl, here, rfl, ?_, by simp⟩
    rw [List.nodup_iff_pairwise_ne, List.pairwise_map]
    exact engine.dirtyDeltas.ordered.imp fun less => ne_of_lt less

theorem missing_run (events : List FlushEvent) {postID : UInt64} {state : Flushing}
    (missing : state.engine.metaDB.posts.get? postID = none)
    (unseen : ∀ toFlush metaDB, state.stage = .updating toFlush metaDB →
      metaDB.posts.get? postID = none) :
    (run (serveFlush outcome) state events).engine.metaDB.posts.get? postID = none := by
  induction events generalizing state with
  | nil => exact missing
  | cons event rest ih =>
      obtain ⟨engine, stage⟩ := state
      cases event with
      | add other change => exact ih missing unseen
      | flush =>
          cases stage with
          | start =>
              by_cases none : engine.dirtyDeltas.entries = []
              · refine ih ?_ ?_ <;> simp only [serveFlush, flushStep, if_pos none]
                · exact missing
                · nofun
              · refine ih ?_ ?_ <;> simp only [serveFlush, flushStep, if_neg none]
                · exact missing
                · nofun
          | taken toFlush =>
              refine ih missing ?_
              intro others metaDB stage
              simp only [serveFlush, flushStep] at stage
              split at stage <;> cases stage
          | begun toFlush =>
              refine ih missing ?_
              intro others metaDB stage
              simp only [serveFlush, flushStep] at stage
              split at stage
              · cases stage
                exact missing
              · cases stage
          | updating toFlush seen =>
              have absent := unseen toFlush seen rfl
              cases toFlush with
              | nil =>
                  refine ih ?_ nofun
                  simp only [serveFlush, flushStep]
                  split
                  · exact absent
                  · exact missing
              | cons entry rest =>
                  refine ih missing ?_
                  intro others metaDB stage
                  cases stage
                  split
                  · rw [MetaDB.updatePost, OrderedMap.get?_modify]
                    split
                    · next same =>
                        rw [← same, absent]
                        rfl
                    · exact absent
                  · exact absent
          | done => exact ih missing unseen

theorem added_append (postID : UInt64) (before after : List FlushEvent) :
    added postID (before ++ after) = (added postID before).plus (added postID after) := by
  induction before with
  | nil =>
      rw [PostDelta.ext_iff]
      simp [added, PostDelta.plus]
  | cons event rest ih =>
      cases event with
      | flush => exact ih
      | add other change =>
          rw [List.cons_append, added, added, ih]
          split
          · rw [PostDelta.plus_assoc]
          · rfl

end Run

def flushEvents (before : List (UInt64 × PostDelta)) (rest : List FlushEvent) :
    List FlushEvent :=
  (before.map fun change => .add change.1 change.2) ++ .flush :: rest

def atSwap (engine : Engine) (before : List (UInt64 × PostDelta)) (postID : UInt64) :
    PostDelta :=
  (engine.pending postID).plus (added postID (before.map fun change => .add change.1 change.2))

def oneUpvote : Engine :=
  { metaDB := { posts := OrderedMap.empty.set 1 (Engine.createdRow {}) }
    dirtyDeltas := OrderedMap.empty.set 1 { upvotes := 1 } }

def flushOf (commit : Bool) : FlushOutcome :=
  { begin := true, prepare := true, exec := fun _ => true, commit }

end Pttbbs.PostSvc
