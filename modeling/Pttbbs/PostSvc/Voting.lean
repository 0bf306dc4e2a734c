/-
Votes cast at the same time.

A call reads the stored vote, writes or deletes the record, and adds the change
to the totals of the post.  No lock holds these steps together.  The totals,
including the changes that calls have written but not yet added, keep up with
the records as long as a call overwrites the vote it read; it does where the
calls of one person read and write one after the other.
-/

import Mathlib.Algebra.BigOperators.Ring.Finset
import Pttbbs.Lib.Runs
import Pttbbs.PostSvc.Engine

namespace Pttbbs.PostSvc

open Pttbbs.Lib

structure VoteCall where
  personName : Bytes
  personID : PersonID := 0
  vote : VoteType
  createdAt : Int64 := 0
  ip : Bytes := []
  now : Int64 := 0
deriving DecidableEq

inductive VoteStage where
  | start
  | read (previous : VoteType)
  | wrote (deltas : Int × Int)
  | done
deriving DecidableEq

def voteStep (postID : UInt64) (call : VoteCall) (engine : Engine) :
    VoteStage → Engine × VoteStage
  | .start =>
      let previous := engine.readVote postID call.personName
      (engine, if previous = call.vote then .done else .read previous)
  | .read previous =>
      (engine.writeVote call.now postID call.personName call.personID call.vote call.createdAt
        call.ip, .wrote (Engine.voteDeltas previous call.vote))
  | .wrote deltas =>
      (engine.addDelta postID { upvotes := deltas.1, downvotes := deltas.2 }, .done)
  | .done => (engine, .done)

abbrev Voting (Caller : Type) := Threads Caller Engine VoteStage

def Voting.start (Caller : Type) (engine : Engine) : Voting Caller :=
  { shared := engine, stages := fun _ => .start }

structure Tally where
  ofRow : PostRow → Int
  ofDelta : PostDelta → Int
  ofDeltas : Int × Int → Int
  vote : VoteType

def upvoteTally : Tally := ⟨PostRow.upvotes, PostDelta.upvotes, Prod.fst, voteUp⟩

def downvoteTally : Tally := ⟨PostRow.downvotes, PostDelta.downvotes, Prod.snd, voteDown⟩

namespace Engine

def total (engine : Engine) (tally : Tally) (postID : UInt64) : Int :=
  ((engine.metaDB.posts.get? postID).map tally.ofRow).getD 0 +
    ((engine.dirtyDeltas.get? postID).map tally.ofDelta).getD 0

def storedVotes (engine : Engine) (vote : VoteType) (postID : UInt64) : Nat :=
  engine.votesDB.count (fun entry =>
    (encodeVotePrefix postID).isPrefixOf entry.1 && voteOfValue entry.2 = vote)

def VotesCounted (engine : Engine) (postID : UInt64) : Prop :=
  engine.total upvoteTally postID = engine.storedVotes voteUp postID ∧
    engine.total downvoteTally postID = engine.storedVotes voteDown postID

instance (engine : Engine) (postID : UInt64) : Decidable (engine.VotesCounted postID) :=
  inferInstanceAs (Decidable (_ ∧ _))

end Engine

def Tally.owed (tally : Tally) : VoteStage → Int
  | .wrote deltas => tally.ofDeltas deltas
  | _ => 0

@[simp] theorem Tally.owed_start (tally : Tally) : tally.owed .start = 0 := rfl

@[simp] theorem Tally.owed_read (tally : Tally) (previous : VoteType) :
    tally.owed (.read previous) = 0 := rfl

@[simp] theorem Tally.owed_wrote (tally : Tally) (deltas : Int × Int) :
    tally.owed (.wrote deltas) = tally.ofDeltas deltas := rfl

@[simp] theorem Tally.owed_done (tally : Tally) : tally.owed .done = 0 := rfl

def VoteStage.previous? : VoteStage → Option VoteType
  | .read previous => some previous
  | _ => none

/-- A call about to write finds the vote it read. -/
def StillStored {Caller : Type} (postID : UInt64) (calls : Caller → VoteCall)
    (state : Voting Caller) (caller : Caller) : Prop :=
  ∀ previous ∈ (state.stages caller).previous?,
    state.shared.readVote postID (calls caller).personName = previous

instance {Caller : Type} (postID : UInt64) (calls : Caller → VoteCall) (state : Voting Caller)
    (caller : Caller) : Decidable (StillStored postID calls state caller) :=
  inferInstanceAs (Decidable (∀ previous ∈ (state.stages caller).previous?, _))

theorem votePost_eq_steps (engine : Engine) (postID : UInt64) (call : VoteCall) :
    (run (serve (fun _ => voteStep postID call)) (Voting.start Unit engine)
      (List.replicate 3 ())).shared =
      (engine.votePost call.now postID call.personName call.personID call.vote call.createdAt
        call.ip).1 := by
  simp only [Voting.start, run_serve_unit, Engine.votePost]
  by_cases same : engine.readVote postID call.personName = call.vote
  · have first : voteStep postID call engine .start = (engine, .done) := by
      simp only [voteStep, if_pos same]
    rw [Function.iterate_succ_apply, first, if_pos same]
    rfl
  · have first : voteStep postID call engine .start =
        (engine, .read (engine.readVote postID call.personName)) := by
      simp only [voteStep, if_neg same]
    rw [Function.iterate_succ_apply, first, if_neg same]
    rfl

/-! ### One write -/

def Tally.Kept (tally : Tally) : Prop := tally = upvoteTally ∨ tally = downvoteTally

theorem Tally.Kept.counts {tally : Tally} (kept : tally.Kept) :
    tally.vote = voteUp ∨ tally.vote = voteDown := by
  rcases kept with rfl | rfl
  · exact Or.inl rfl
  · exact Or.inr rfl

theorem Tally.Kept.ofDeltas_voteDeltas {tally : Tally} (kept : tally.Kept)
    (previous newVote : VoteType) :
    tally.ofDeltas (Engine.voteDeltas previous newVote) =
      (if newVote = tally.vote then 1 else 0) - (if previous = tally.vote then 1 else 0) := by
  rcases kept with rfl | rfl <;> rfl

theorem voteOfValue_encodeVoteValue {vote : VoteType} (counted : vote = voteUp ∨ vote = voteDown)
    (personID : PersonID) (createdAt : Int64) (ip : Bytes) :
    voteOfValue (encodeVoteValue vote personID createdAt ip) = vote := by
  rcases counted with rfl | rfl
  · rfl
  · rfl

private theorem votePrefix_isPrefixOf (postID : UInt64) (user : Bytes) :
    (encodeVotePrefix postID).isPrefixOf (encodeVoteKey postID user) = true := by
  rw [List.isPrefixOf_iff_prefix]
  exact ⟨user, rfl⟩

theorem storedVotes_eq_delete (engine : Engine) (vote : VoteType)
    (counted : vote = voteUp ∨ vote = voteDown) (postID : UInt64) (personName : Bytes) :
    engine.storedVotes vote postID =
      { engine with
        votesDB := engine.votesDB.delete (encodeVoteKey postID personName) }.storedVotes vote
          postID + if engine.readVote postID personName = vote then 1 else 0 := by
  unfold Engine.storedVotes Engine.readVote
  cases found : engine.votesDB.get? (encodeVoteKey postID personName) with
  | none =>
      have neutral : ¬ voteNeutral = vote := by
        rcases counted with rfl | rfl <;> decide
      rw [engine.votesDB.count_delete_of_none _ found, if_neg neutral, Nat.add_zero]
  | some value =>
      rw [engine.votesDB.count_delete_of_some _ found]
      simp only [votePrefix_isPrefixOf, Bool.true_and, decide_eq_true_eq]

theorem storedVotes_writeVote (engine : Engine) {vote : VoteType}
    (counted : vote = voteUp ∨ vote = voteDown) (now : Int64) (postID : UInt64)
    (personName : Bytes) (personID : PersonID) (newVote : VoteType) (createdAt : Int64)
    (ip : Bytes) :
    ((engine.writeVote now postID personName personID newVote createdAt ip).storedVotes vote
        postID : Int) =
      engine.storedVotes vote postID + (if newVote = vote then 1 else 0) -
        (if engine.readVote postID personName = vote then 1 else 0) := by
  rw [storedVotes_eq_delete engine vote counted postID personName]
  unfold Engine.writeVote
  split
  · rename_i written
    have cast : newVote = voteUp ∨ newVote = voteDown := by simpa using written
    unfold Engine.storedVotes
    rw [OrderedMap.count_set]
    simp only [votePrefix_isPrefixOf, Bool.true_and, decide_eq_true_eq,
      voteOfValue_encodeVoteValue cast]
    push_cast
    ring
  · rename_i erased
    have other : ¬ newVote = vote := by
      rintro rfl
      exact erased (by simpa using counted)
    rw [if_neg other]
    push_cast
    ring

@[simp] theorem total_writeVote (engine : Engine) (tally : Tally) (now : Int64)
    (postID : UInt64) (personName : Bytes) (personID : PersonID) (newVote : VoteType)
    (createdAt : Int64) (ip : Bytes) :
    (engine.writeVote now postID personName personID newVote createdAt ip).total tally postID =
      engine.total tally postID := by
  unfold Engine.writeVote
  split <;> rfl

@[simp] theorem storedVotes_addDelta (engine : Engine) (vote : VoteType) (postID : UInt64)
    (change : PostDelta) :
    (engine.addDelta postID change).storedVotes vote postID =
      engine.storedVotes vote postID := rfl

theorem Tally.Kept.total_addDelta {tally : Tally} (kept : tally.Kept) (engine : Engine)
    (postID : UInt64) (deltas : Int × Int) :
    (engine.addDelta postID { upvotes := deltas.1, downvotes := deltas.2 }).total tally postID =
      engine.total tally postID + tally.ofDeltas deltas := by
  have added : ∀ ofDelta : PostDelta → Int, ofDelta {} = 0 →
      ((engine.dirtyDeltas.get? postID).map ofDelta).getD 0 =
        ofDelta ((engine.dirtyDeltas.get? postID).getD {}) := by
    intro ofDelta zero
    cases engine.dirtyDeltas.get? postID with
    | none => exact zero.symm
    | some pending => rfl
  unfold Engine.total Engine.addDelta
  rcases kept with rfl | rfl
  · simp only [OrderedMap.get?_set_self, Option.map_some, Option.getD_some]
    rw [added upvoteTally.ofDelta rfl]
    simp only [upvoteTally]
    ring
  · simp only [OrderedMap.get?_set_self, Option.map_some, Option.getD_some]
    rw [added downvoteTally.ofDelta rfl]
    simp only [downvoteTally]
    ring

/-! ### Interleaved calls -/

section Interleaved

variable {Caller : Type} [Fintype Caller] [DecidableEq Caller]
  (postID : UInt64) (calls : Caller → VoteCall)

def votingRun (engine : Engine) (schedule : List Caller) : Voting Caller :=
  run (serve (fun caller => voteStep postID (calls caller))) (Voting.start Caller engine) schedule

def Balanced (tally : Tally) (postID : UInt64) (state : Voting Caller) : Prop :=
  state.shared.total tally postID + ∑ caller, tally.owed (state.stages caller) =
    state.shared.storedVotes tally.vote postID

omit [DecidableEq Caller] in
theorem balanced_start (tally : Tally) (engine : Engine)
    (agree : engine.total tally postID = engine.storedVotes tally.vote postID) :
    Balanced tally postID (Voting.start Caller engine) := by
  have nothing : ∑ caller, tally.owed ((Voting.start Caller engine).stages caller) = 0 :=
    Finset.sum_eq_zero (fun _caller _ => rfl)
  unfold Balanced
  rw [nothing, add_zero]
  exact agree

private theorem owed_serve (tally : Tally) (state : Voting Caller) (caller : Caller) :
    ∑ other, tally.owed ((serve (fun caller => voteStep postID (calls caller)) state
        caller).stages other) =
      ∑ other, tally.owed (state.stages other) - tally.owed (state.stages caller) +
        tally.owed (voteStep postID (calls caller) state.shared (state.stages caller)).2 := by
  rw [← Finset.add_sum_erase _ _ (Finset.mem_univ caller),
    ← Finset.add_sum_erase (a := caller) _ (fun other => tally.owed (state.stages other))
      (Finset.mem_univ caller), serve_stages_self]
  have others : ∀ other ∈ Finset.univ.erase caller,
      tally.owed ((serve (fun caller => voteStep postID (calls caller)) state
        caller).stages other) = tally.owed (state.stages other) := by
    intro other member
    rw [serve_stages_of_ne _ _ (Finset.ne_of_mem_erase member)]
  rw [Finset.sum_congr rfl others]
  ring

theorem balanced_serve {tally : Tally} (kept : tally.Kept) (state : Voting Caller)
    (caller : Caller) (balanced : Balanced tally postID state)
    (stored : StillStored postID calls state caller) :
    Balanced tally postID (serve (fun caller => voteStep postID (calls caller)) state
      caller) := by
  unfold Balanced at *
  rw [owed_serve, serve_shared]
  cases stage : state.stages caller with
  | start =>
      simp only [voteStep]
      split <;> simpa using balanced
  | read previous =>
      have found := stored previous (by rw [stage]; rfl)
      simp only [voteStep, total_writeVote, Tally.owed_read, Tally.owed_wrote,
        kept.ofDeltas_voteDeltas, storedVotes_writeVote _ kept.counts, found]
      omega
  | wrote deltas =>
      simp only [voteStep, kept.total_addDelta, Tally.owed_wrote, Tally.owed_done,
        storedVotes_addDelta]
      omega
  | done => simpa [voteStep] using balanced

/-- A call that starts finds no call of the same person between its read and its write. -/
def StartsAlone (state : Voting Caller) (caller : Caller) : Prop :=
  state.stages caller = .start → ∀ other,
    (calls other).personName = (calls caller).personName → (state.stages other).previous? = none

instance (state : Voting Caller) (caller : Caller) : Decidable (StartsAlone calls state caller) :=
  inferInstanceAs (Decidable (_ → _))

structure ReadsStand (state : Voting Caller) : Prop where
  stored : ∀ caller, StillStored postID calls state caller
  single : ∀ one other, (calls one).personName = (calls other).personName →
    (state.stages one).previous? ≠ none → (state.stages other).previous? ≠ none → one = other

theorem voteStep_previous? {call : VoteCall} {engine : Engine} {stage : VoteStage}
    {previous : VoteType}
    (reads : (voteStep postID call engine stage).2.previous? = some previous) :
    stage = .start ∧ previous = engine.readVote postID call.personName := by
  cases stage with
  | start =>
      simp only [voteStep] at reads
      split at reads
      · cases reads
      · exact ⟨rfl, (Option.some.inj reads).symm⟩
  | read previous => cases reads
  | wrote deltas => cases reads
  | done => cases reads

theorem readVote_voteStep {call : VoteCall} (engine : Engine) {stage : VoteStage} {name : Bytes}
    (apart : stage.previous? = none ∨ name ≠ call.personName) :
    (voteStep postID call engine stage).1.readVote postID name =
      engine.readVote postID name := by
  cases stage with
  | read previous =>
      have different : name ≠ call.personName := apart.resolve_left (Option.some_ne_none previous)
      have keys : encodeVoteKey postID name ≠ encodeVoteKey postID call.personName :=
        fun same => different (encodeVoteKey_inj.mp same).2
      simp only [voteStep, Engine.writeVote]
      split
      · simp only [Engine.readVote, OrderedMap.get?_set_of_ne _ _ keys]
      · simp only [Engine.readVote, OrderedMap.get?_delete_of_ne _ keys]
  | start => rfl
  | wrote deltas => rfl
  | done => rfl

omit [Fintype Caller] in
theorem ReadsStand.serve {state : Voting Caller} (stand : ReadsStand postID calls state)
    (caller : Caller) (alone : StartsAlone calls state caller) :
    ReadsStand postID calls
      (serve (fun caller => voteStep postID (calls caller)) state caller) := by
  have reader : (voteStep postID (calls caller) state.shared
      (state.stages caller)).2.previous? ≠ none → state.stages caller = .start := by
    intro reads
    obtain ⟨previous, read⟩ := Option.ne_none_iff_exists'.mp reads
    exact (voteStep_previous? postID read).1
  constructor
  · intro other previous reads
    rw [serve_shared]
    by_cases here : other = caller
    · subst here
      rw [serve_stages_self] at reads
      obtain ⟨start, rfl⟩ := voteStep_previous? postID reads
      exact readVote_voteStep postID _ (Or.inl (by rw [start]; rfl))
    · rw [serve_stages_of_ne _ _ here] at reads
      rw [readVote_voteStep]
      · exact stand.stored other previous reads
      · by_cases idle : (state.stages caller).previous? = none
        · exact Or.inl idle
        · refine Or.inr (fun same => here (stand.single other caller same ?_ idle))
          rw [reads]
          exact Option.some_ne_none previous
  · intro one other same reads overlaps
    rw [serve_stages] at reads overlaps
    split at reads <;> split at overlaps
    · exact ‹one = caller›.trans ‹other = caller›.symm
    · subst ‹one = caller›
      exact absurd (alone (reader reads) other same.symm) overlaps
    · subst ‹other = caller›
      exact absurd (alone (reader overlaps) one same) reads
    · exact stand.single one other same reads overlaps

end Interleaved

end Pttbbs.PostSvc
