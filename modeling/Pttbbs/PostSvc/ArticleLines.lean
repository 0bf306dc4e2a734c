/-
What becomes of the lines of an article.

Every line goes to the body, to one comment or to one crosspost, except blank lines after
a push and edit marks before the last.  The times of the comments do not run backwards as
long as they stay in the range of a 64-bit number.
-/

import Mathlib.Data.Int.ConditionallyCompleteOrder
import Mathlib.Order.ConditionallyCompleteLattice.Basic
import Pttbbs.PostSvc.Article

namespace Pttbbs.PostSvc

open Pttbbs.Lib

/-! ### Edit marks -/

def keepLastEdit : List Bytes → List Bytes
  | [] => []
  | line :: rest =>
      if isEditMark line && rest.any isEditMark then keepLastEdit rest
      else line :: keepLastEdit rest

theorem keepLastEdit_of_free {lines : List Bytes} (free : lines.any isEditMark = false) :
    keepLastEdit lines = lines := by
  induction lines with
  | nil => rfl
  | cons line rest ih =>
      rw [List.any_cons, Bool.or_eq_false_iff] at free
      unfold keepLastEdit
      rw [free.1, ih free.2]
      rfl

def lastIdxFrom (start : Nat) (lines : List Bytes) : Option Nat :=
  ((lines.zipIdx start).reverse.find? fun line => isEditMark line.1).map Prod.snd

theorem lastIdxFrom_cons (start : Nat) (line : Bytes) (rest : List Bytes) :
    lastIdxFrom start (line :: rest) =
      (lastIdxFrom (start + 1) rest).or (if isEditMark line then some start else none) := by
  unfold lastIdxFrom
  rw [List.zipIdx_cons, List.reverse_cons, List.find?_append]
  cases (rest.zipIdx (start + 1)).reverse.find? fun line => isEditMark line.1 with
  | some found => rfl
  | none =>
      cases mark : isEditMark line <;> simp [mark]

theorem lastIdxFrom_isSome (start : Nat) (lines : List Bytes) :
    (lastIdxFrom start lines).isSome = lines.any isEditMark := by
  induction lines generalizing start with
  | nil => rfl
  | cons line rest ih =>
      rw [lastIdxFrom_cons, Option.isSome_or, ih, List.any_cons, Bool.or_comm]
      cases isEditMark line <;> rfl

theorem le_of_lastIdxFrom {start last : Nat} {lines : List Bytes}
    (found : lastIdxFrom start lines = some last) : start ≤ last := by
  unfold lastIdxFrom at found
  obtain ⟨entry, isFirst, rfl⟩ := Option.map_eq_some_iff.mp found
  have member := List.mem_reverse.mp (List.mem_of_find?_eq_some isFirst)
  exact List.le_snd_of_mem_zipIdx member

theorem filter_editMarks {start last : Nat} {lines : List Bytes}
    (found : lastIdxFrom start lines = some last) :
    ((lines.zipIdx start).filter fun line => !(isEditMark line.1 && line.2 ≠ last)).map Prod.fst =
      keepLastEdit lines := by
  induction lines generalizing start with
  | nil => cases found
  | cons line rest ih =>
      rw [lastIdxFrom_cons] at found
      rw [List.zipIdx_cons]
      unfold keepLastEdit
      rw [← lastIdxFrom_isSome (start + 1) rest]
      cases later : lastIdxFrom (start + 1) rest with
      | some index =>
          rw [later, Option.some_or] at found
          cases found
          have above := le_of_lastIdxFrom later
          have other : start ≠ last := by omega
          cases mark : isEditMark line with
          | true =>
              rw [List.filter_cons_of_neg (by simp [mark, other])]
              exact ih later
          | false =>
              rw [List.filter_cons_of_pos (by simp [mark]), List.map_cons]
              exact congrArg _ (ih later)
      | none =>
          rw [later, Option.none_or] at found
          cases mark : isEditMark line with
          | false =>
              rw [mark] at found
              cases found
          | true =>
              rw [mark] at found
              cases found
              have free : rest.any isEditMark = false := by
                rw [← lastIdxFrom_isSome (last + 1) rest, later]
                rfl
              have whole : (rest.zipIdx (last + 1)).filter (fun line =>
                  !(isEditMark line.1 && line.2 ≠ last)) = rest.zipIdx (last + 1) := by
                apply List.filter_eq_self.mpr
                intro entry member
                have plain := List.any_eq_false.mp free entry.1 (List.fst_mem_of_mem_zipIdx member)
                rw [Bool.eq_false_iff.mpr plain]
                rfl
              rw [List.filter_cons_of_pos (by simp), List.map_cons, whole,
                List.zipIdx_map_fst, keepLastEdit_of_free free]
              rfl

theorem dedupEditMarks_eq (bodyLines : List Bytes) :
    dedupEditMarks bodyLines = keepLastEdit bodyLines := by
  have start : lastIdx isEditMark bodyLines = lastIdxFrom 0 bodyLines := rfl
  unfold dedupEditMarks
  rw [start]
  cases found : lastIdxFrom 0 bodyLines with
  | none =>
      have free := lastIdxFrom_isSome 0 bodyLines
      rw [found] at free
      exact (keepLastEdit_of_free free.symm).symm
  | some last => exact filter_editMarks found

/-! ### Where the lines go -/

inductive Route where
  | body
  | crosspost (record : ParsedCrosspost)
  | blank
  | comment

def routeOf (env : ArticleEnv) (info : ArticleInfo) (firstPush : Option Nat)
    (entry : Bytes × Nat) : Route :=
  match crosspostLog env info (cleanLine entry.1) with
  | some record => .crosspost record
  | none =>
      if isSystemLine (cleanLine entry.1) then .body
      else if firstPush.all (entry.2 < ·) then .body
      else if cleanLine entry.1 = [] then .blank
      else .comment

def Route.bodyLine (entry : Bytes × Route) : Option Bytes :=
  match entry.2 with
  | .body => some entry.1
  | _ => none

def Route.record? (entry : Bytes × Route) : Option ParsedCrosspost :=
  match entry.2 with
  | .crosspost record => some record
  | _ => none

def Route.commentLine (entry : Bytes × Route) : Option Bytes :=
  match entry.2 with
  | .comment => some entry.1
  | _ => none

def routes (env : ArticleEnv) (info : ArticleInfo) (firstPush : Option Nat)
    (entries : List (Bytes × Nat)) : List (Bytes × Route) :=
  entries.map fun entry => (entry.1, routeOf env info firstPush entry)

theorem routeLines_eq (env : ArticleEnv) (info : ArticleInfo) (firstPush : Option Nat)
    (entries : List (Bytes × Nat)) (state : RouteState) :
    entries.foldl (routeLine env info firstPush) state =
      ⟨state.bodyLines ++ (routes env info firstPush entries).filterMap Route.bodyLine,
        state.crossposts ++ (routes env info firstPush entries).filterMap Route.record?,
        state.commentRawLines ++
          (routes env info firstPush entries).filterMap Route.commentLine⟩ := by
  induction entries generalizing state with
  | nil => simp [routes]
  | cons entry rest ih =>
      have tail : routes env info firstPush (entry :: rest) =
          (entry.1, routeOf env info firstPush entry) :: routes env info firstPush rest := rfl
      rw [List.foldl_cons, ih, tail]
      unfold routeLine routeOf
      dsimp only
      cases crosspostLog env info (cleanLine entry.1) with
      | some record => simp [List.filterMap_cons, Route.bodyLine, Route.record?, Route.commentLine]
      | none =>
          dsimp only
          split
          · simp [List.filterMap_cons, Route.bodyLine, Route.record?, Route.commentLine]
          · split
            · simp [List.filterMap_cons, Route.bodyLine, Route.record?, Route.commentLine]
            · split <;>
                simp [List.filterMap_cons, Route.bodyLine, Route.record?, Route.commentLine]

/-! ### The comments -/

structure CommentOf (env : ArticleEnv) (defaultAuthor line : Bytes) (comment : ParsedComment) :
    Prop where
  push : ∀ push, parsePush env (cleanLine line) = some push →
    comment.creatorName = push.author ∧ comment.content = push.content ∧ comment.ip = push.ip ∧
      comment.commentType = push.tag ∧ comment.legacyType = push.legacyType
  white : parsePush env (cleanLine line) = none →
    comment.creatorName = defaultAuthor ∧ comment.content = cleanLine line ∧
      comment.commentType = utf8 "white"

structure CommentStep (env : ArticleEnv) (defaultAuthor line : Bytes)
    (before after : CommentState) (comment : ParsedComment) : Prop where
  body : after.bodyLines = before.bodyLines
  comments : after.comments = before.comments ++ [comment]
  ofLine : CommentOf env defaultAuthor line comment
  time : comment.ctime = after.lastTs
  /-- The next time is that of the line in its year, or follows the last one. -/
  next : after.lastTs = before.lastTs ∨ after.lastTs = before.lastTs + 1 ∨
    before.lastTs ≤ after.lastTs ∧ ∃ push read, parsePush env (cleanLine line) = some push ∧
      readDate push.dateStr = some read ∧ after.lastTs = read.inYear env after.date.year
  year : before.date.year ≤ after.date.year ∧ after.date.year ≤ before.date.year + 1

theorem rollDate_cases (env : ArticleEnv) (dateStr : Bytes) (date : DateState) (lastTs : Int64) :
    ((rollDate env dateStr date lastTs).1 = lastTs ∨
      (rollDate env dateStr date lastTs).1 = lastTs + 1 ∨
      lastTs ≤ (rollDate env dateStr date lastTs).1 ∧ ∃ read, readDate dateStr = some read ∧
        (rollDate env dateStr date lastTs).1 =
          read.inYear env (rollDate env dateStr date lastTs).2.year) ∧
      date.year ≤ (rollDate env dateStr date lastTs).2.year ∧
      (rollDate env dateStr date lastTs).2.year ≤ date.year + 1 := by
  unfold rollDate
  cases found : readDate dateStr with
  | none =>
      dsimp only
      exact ⟨Or.inl rfl, by omega, by omega⟩
  | some read =>
      dsimp only
      generalize chosen : (if read.month < date.month ||
        (read.month = date.month && read.day < date.day) then date.year + 1 else date.year) = year
      have near : year = date.year + 1 ∨ year = date.year := by
        rw [← chosen]
        split
        · exact Or.inl rfl
        · exact Or.inr rfl
      refine ⟨?_, by omega, by omega⟩
      split
      · exact Or.inr (Or.inl rfl)
      · rename_i later
        exact Or.inr (Or.inr ⟨not_lt.mp later, read, rfl, rfl⟩)

theorem parseCommentLine_step (env : ArticleEnv) (defaultAuthor : Bytes) (state : CommentState)
    {line : Bytes} (filled : cleanLine line ≠ []) (plain : isSystemLine (cleanLine line) = false) :
    ∃ comment, CommentStep env defaultAuthor line state
      (parseCommentLine env defaultAuthor state line) comment := by
  unfold parseCommentLine
  dsimp only
  rw [if_neg filled, plain, if_neg (by decide)]
  cases parsed : parsePush env (cleanLine line) with
  | none =>
      have ofLine : CommentOf env defaultAuthor line ⟨defaultAuthor, cleanLine line, [],
          state.lastTs, state.lastTs, utf8 "white", legacyTypeArrow⟩ := by
        refine ⟨fun push other => ?_, fun _ => ⟨rfl, rfl, rfl⟩⟩
        rw [parsed] at other
        cases other
      exact ⟨_, rfl, rfl, ofLine, rfl, Or.inl rfl, le_refl _, le_of_lt (lt_add_one _)⟩
  | some push =>
      have ofLine : ∀ time, CommentOf env defaultAuthor line
          ⟨push.author, push.content, push.ip, time, time, push.tag, push.legacyType⟩ := by
        intro time
        refine ⟨fun other same => ?_, fun none => ?_⟩
        · cases parsed.symm.trans same
          exact ⟨rfl, rfl, rfl, rfl, rfl⟩
        · rw [parsed] at none
          cases none
      dsimp only
      by_cases undated : push.dateStr = []
      · rw [if_neg (not_not.mpr undated)]
        dsimp only
        rw [if_neg (lt_irrefl _)]
        exact ⟨_, rfl, rfl, ofLine _, rfl, Or.inl rfl, le_refl _, le_of_lt (lt_add_one _)⟩
      · rw [if_pos undated]
        obtain ⟨next, lower, upper⟩ := rollDate_cases env push.dateStr state.date state.lastTs
        generalize rollDate env push.dateStr state.date state.lastTs = rolled at next lower upper
        refine ⟨_, rfl, rfl, ofLine _, rfl, ?_, lower, upper⟩
        dsimp only
        split
        · exact Or.inr (Or.inl rfl)
        · rcases next with same | after | ⟨later, read, found, time⟩
          · exact Or.inl same
          · exact Or.inr (Or.inl after)
          · exact Or.inr (Or.inr ⟨later, push, read, parsed, found, time⟩)

def IsCommentLine (line : Bytes) : Prop :=
  cleanLine line ≠ [] ∧ isSystemLine (cleanLine line) = false

/-- No date of the lines is beyond a bound, in any of the years. -/
def DatesUpTo (env : ArticleEnv) (lines : List Bytes) (years : Set Int) (bound : Int) : Prop :=
  ∀ line ∈ lines, ∀ push read, parsePush env (cleanLine line) = some push →
    readDate push.dateStr = some read → ∀ year ∈ years, (read.inYear env year).toInt ≤ bound

theorem int64_add_one {time : Int64} {bound : Int} (below : time.toInt ≤ bound)
    (room : bound + 1 < 2 ^ 63) : (time + 1).toInt = time.toInt + 1 := by
  have unit : (1 : Int64).toInt = 1 := rfl
  have lower := time.le_toInt
  rw [Int64.toInt_add, unit]
  exact Int.bmod_eq_of_le (by omega) (by omega)

theorem CommentStep.times {env : ArticleEnv} {defaultAuthor line : Bytes}
    {before after : CommentState} {comment : ParsedComment}
    (step : CommentStep env defaultAuthor line before after comment) {years : Set Int}
    {bound : Int} (dates : DatesUpTo env [line] years bound) (year : after.date.year ∈ years)
    (below : before.lastTs.toInt ≤ bound) (room : bound + 1 < 2 ^ 63) :
    before.lastTs ≤ after.lastTs ∧ after.lastTs.toInt ≤ bound + 1 := by
  rcases step.next with same | following | ⟨later, push, read, parsed, found, time⟩
  · rw [same]
    exact ⟨le_refl _, by omega⟩
  · have added := int64_add_one below room
    rw [following, Int64.le_iff_toInt_le, added]
    omega
  · have dated := dates line List.mem_cons_self push read parsed found _ year
    rw [← time] at dated
    exact ⟨later, by omega⟩

theorem parseComments_run (env : ArticleEnv) (defaultAuthor : Bytes) {lines : List Bytes}
    (proper : ∀ line ∈ lines, IsCommentLine line) (state : CommentState) :
    ∃ comments : List ParsedComment,
      List.Forall₂ (CommentOf env defaultAuthor) lines comments ∧
      (lines.foldl (parseCommentLine env defaultAuthor) state).bodyLines = state.bodyLines ∧
      (lines.foldl (parseCommentLine env defaultAuthor) state).comments =
        state.comments ++ comments ∧
      ∀ base top bound : Int, DatesUpTo env lines (Set.Icc base top) bound →
        base ≤ state.date.year → state.date.year + lines.length ≤ top →
        state.lastTs.toInt ≤ bound → bound + lines.length < 2 ^ 63 →
          comments.Pairwise (fun left right => left.ctime ≤ right.ctime) ∧
            ∀ comment ∈ comments, state.lastTs ≤ comment.ctime := by
  induction lines generalizing state with
  | nil =>
      refine ⟨[], List.Forall₂.nil, rfl, (List.append_nil _).symm, ?_⟩
      intro _ _ _ _ _ _ _ _
      exact ⟨List.Pairwise.nil, nofun⟩
  | cons line rest ih =>
      obtain ⟨here, later⟩ := List.forall_mem_cons.mp proper
      obtain ⟨comment, step⟩ := parseCommentLine_step env defaultAuthor state here.1 here.2
      obtain ⟨comments, paired, body, added, times⟩ :=
        ih later (parseCommentLine env defaultAuthor state line)
      refine ⟨comment :: comments, List.Forall₂.cons step.ofLine paired, ?_, ?_, ?_⟩
      · rw [List.foldl_cons, body, step.body]
      · rw [List.foldl_cons, added, step.comments, List.append_assoc]
        rfl
      · intro base top bound dates since years below room
        rw [List.length_cons, Nat.cast_succ] at years room
        obtain ⟨lower, upper⟩ := step.year
        obtain ⟨forward, next⟩ := step.times
          (fun other member => dates other (List.mem_cons.mpr (Or.inl
            (List.mem_singleton.mp member)))) ⟨by omega, by omega⟩ below (by omega)
        obtain ⟨ordered, above⟩ := times base top (bound + 1)
          (fun other member push read parsed found year inside =>
            le_trans (dates other (List.mem_cons_of_mem _ member) push read parsed found year
              inside) (by omega)) (by omega) (by omega) next (by omega)
        rw [← step.time] at above forward
        refine ⟨List.pairwise_cons.mpr ⟨above, ordered⟩, ?_⟩
        intro other member
        rcases List.mem_cons.mp member with same | after
        · rw [same]
          exact forward
        · exact le_trans forward (above other after)

/-! ### Fates -/

inductive Fate where
  | body
  | comment (comment : ParsedComment)
  | crosspost (record : ParsedCrosspost)
  | blank
  | editMark

namespace Fate

def bodyLine (entry : Bytes × Fate) : Option Bytes :=
  match entry.2 with
  | .body => some entry.1
  | _ => none

def comment? (entry : Bytes × Fate) : Option ParsedComment :=
  match entry.2 with
  | .comment parsed => some parsed
  | _ => none

def record? (entry : Bytes × Fate) : Option ParsedCrosspost :=
  match entry.2 with
  | .crosspost record => some record
  | _ => none

end Fate

inductive FateOf (env : ArticleEnv) (defaultAuthor : Bytes) :
    Bytes × Route → Bytes × Fate → Prop where
  | body (line : Bytes) : FateOf env defaultAuthor (line, .body) (line, .body)
  | crosspost (line : Bytes) (record : ParsedCrosspost) :
      FateOf env defaultAuthor (line, .crosspost record) (line, .crosspost record)
  | blank (line : Bytes) : FateOf env defaultAuthor (line, .blank) (line, .blank)
  | comment (line : Bytes) (comment : ParsedComment)
      (ofLine : CommentOf env defaultAuthor line comment) :
      FateOf env defaultAuthor (line, .comment) (line, .comment comment)

theorem exists_fates {env : ArticleEnv} {defaultAuthor : Bytes} {routed : List (Bytes × Route)}
    {comments : List ParsedComment} (paired : List.Forall₂ (CommentOf env defaultAuthor)
      (routed.filterMap Route.commentLine) comments) :
    ∃ fates, List.Forall₂ (FateOf env defaultAuthor) routed fates ∧
      fates.filterMap Fate.comment? = comments := by
  induction routed generalizing comments with
  | nil =>
      cases paired
      exact ⟨[], List.Forall₂.nil, rfl⟩
  | cons entry rest ih =>
      obtain ⟨line, route⟩ := entry
      cases route with
      | comment =>
          have opened : ((line, Route.comment) :: rest).filterMap Route.commentLine =
              line :: rest.filterMap Route.commentLine := rfl
          rw [opened] at paired
          cases paired with
          | cons ofLine later =>
              obtain ⟨fates, matched, same⟩ := ih later
              refine ⟨_ :: fates, List.Forall₂.cons (FateOf.comment line _ ofLine) matched, ?_⟩
              rw [← same]
              rfl
      | body =>
          obtain ⟨fates, matched, same⟩ := ih paired
          exact ⟨_ :: fates, List.Forall₂.cons (FateOf.body line) matched, same⟩
      | crosspost record =>
          obtain ⟨fates, matched, same⟩ := ih paired
          exact ⟨_ :: fates, List.Forall₂.cons (FateOf.crosspost line record) matched, same⟩
      | blank =>
          obtain ⟨fates, matched, same⟩ := ih paired
          exact ⟨_ :: fates, List.Forall₂.cons (FateOf.blank line) matched, same⟩

theorem fates_lines {env : ArticleEnv} {defaultAuthor : Bytes} {routed : List (Bytes × Route)}
    {fates : List (Bytes × Fate)}
    (matched : List.Forall₂ (FateOf env defaultAuthor) routed fates) :
    fates.map Prod.fst = routed.map Prod.fst ∧
      fates.filterMap Fate.bodyLine = routed.filterMap Route.bodyLine ∧
      fates.filterMap Fate.record? = routed.filterMap Route.record? := by
  induction matched with
  | nil => exact ⟨rfl, rfl, rfl⟩
  | cons here _ ih =>
      obtain ⟨lines, body, records⟩ := ih
      cases here <;>
        simp [List.filterMap_cons, Fate.bodyLine, Fate.record?, Route.bodyLine, Route.record?, lines,
          body, records]

def markEdits : List (Bytes × Fate) → List (Bytes × Fate)
  | [] => []
  | entry :: rest =>
      (entry.1,
        match entry.2 with
        | .body =>
            if isEditMark entry.1 && (rest.filterMap Fate.bodyLine).any isEditMark then .editMark
            else .body
        | other => other) :: markEdits rest

theorem any_keepLastEdit (lines : List Bytes) :
    (keepLastEdit lines).any isEditMark = lines.any isEditMark := by
  induction lines with
  | nil => rfl
  | cons line rest ih =>
      unfold keepLastEdit
      split
      · rename_i dropped
        rw [Bool.and_eq_true] at dropped
        rw [ih, List.any_cons, dropped.1, dropped.2]
        rfl
      · rw [List.any_cons, List.any_cons, ih]

theorem markEdits_lines (fates : List (Bytes × Fate)) :
    (markEdits fates).map Prod.fst = fates.map Prod.fst ∧
      (markEdits fates).filterMap Fate.bodyLine = keepLastEdit (fates.filterMap Fate.bodyLine) ∧
      (markEdits fates).filterMap Fate.comment? = fates.filterMap Fate.comment? ∧
      (markEdits fates).filterMap Fate.record? = fates.filterMap Fate.record? := by
  induction fates with
  | nil => exact ⟨rfl, rfl, rfl, rfl⟩
  | cons entry rest ih =>
      obtain ⟨line, fate⟩ := entry
      obtain ⟨lines, body, comments, records⟩ := ih
      unfold markEdits
      cases fate with
      | body =>
          have opened : ((line, Fate.body) :: rest).filterMap Fate.bodyLine =
              line :: rest.filterMap Fate.bodyLine := rfl
          rw [opened]
          unfold keepLastEdit
          dsimp only
          split <;>
            simp [List.filterMap_cons, Fate.bodyLine, Fate.comment?, Fate.record?, lines, body,
              comments, records]
      | comment parsed =>
          simp [List.filterMap_cons, Fate.bodyLine, Fate.comment?, Fate.record?, lines, body,
            comments, records]
      | crosspost record =>
          simp [List.filterMap_cons, Fate.bodyLine, Fate.comment?, Fate.record?, lines, body,
            comments, records]
      | blank =>
          simp [List.filterMap_cons, Fate.bodyLine, Fate.comment?, Fate.record?, lines, body,
            comments, records]
      | editMark =>
          simp [List.filterMap_cons, Fate.bodyLine, Fate.comment?, Fate.record?, lines, body,
            comments, records]

theorem markEdits_getElem? (fates : List (Bytes × Fate)) (index : Nat) (line : Bytes)
    (fate : Fate) (found : (markEdits fates)[index]? = some (line, fate)) :
    fates[index]? = some (line, fate) ∨
      fates[index]? = some (line, .body) ∧ fate = .editMark ∧ isEditMark line = true ∧
        ∃ later following, index < later ∧ (markEdits fates)[later]? = some (following, .body) ∧
          isEditMark following = true := by
  induction fates generalizing index with
  | nil => cases found
  | cons entry rest ih =>
      obtain ⟨first, fateOfFirst⟩ := entry
      unfold markEdits at found ⊢
      cases index with
      | zero =>
          simp only [List.getElem?_cons_zero, Option.some.injEq, Prod.mk.injEq] at found ⊢
          obtain ⟨rfl, rfl⟩ := found
          cases fateOfFirst with
          | body =>
              dsimp only
              split
              · rename_i dropped
                rw [Bool.and_eq_true] at dropped
                right
                refine ⟨⟨rfl, rfl⟩, rfl, dropped.1, ?_⟩
                rw [← any_keepLastEdit, ← (markEdits_lines rest).2.1] at dropped
                obtain ⟨following, member, mark⟩ := List.any_eq_true.mp dropped.2
                obtain ⟨entry, inside, kept⟩ := List.mem_filterMap.mp member
                obtain ⟨later, place⟩ := List.mem_iff_getElem?.mp inside
                refine ⟨later + 1, following, Nat.succ_pos _, ?_, mark⟩
                rw [List.getElem?_cons_succ, place]
                obtain ⟨entryLine, entryFate⟩ := entry
                cases entryFate with
                | body => cases kept; rfl
                | comment parsed => cases kept
                | crosspost record => cases kept
                | blank => cases kept
                | editMark => cases kept
              · exact Or.inl ⟨rfl, rfl⟩
          | comment parsed => exact Or.inl ⟨rfl, rfl⟩
          | crosspost record => exact Or.inl ⟨rfl, rfl⟩
          | blank => exact Or.inl ⟨rfl, rfl⟩
          | editMark => exact Or.inl ⟨rfl, rfl⟩
      | succ index =>
          rw [List.getElem?_cons_succ] at found ⊢
          rcases ih index found with same | ⟨before, dropped, mark, later, following, beyond, place,
            also⟩
          · exact Or.inl same
          · refine Or.inr ⟨before, dropped, mark, later + 1, following, Nat.succ_lt_succ beyond, ?_,
              also⟩
            rw [List.getElem?_cons_succ]
            exact place

/-! ### The whole article -/

theorem firstPushIdx_spec {candidates : List Bytes} {index : Nat}
    (found : firstPushIdx candidates = some index) :
    ∃ line, candidates[index]? = some line ∧ isPushLine (cleanLine line) = true := by
  unfold firstPushIdx at found
  obtain ⟨offset, first, rfl⟩ := Option.map_eq_some_iff.mp found
  obtain ⟨inside, isPush, _earlier⟩ := List.findIdx?_eq_some_iff_getElem.mp first
  refine ⟨_, ?_, isPush⟩
  rw [← List.getElem?_eq_getElem, List.getElem?_drop]

theorem isPushLine_nil : isPushLine [] = false := rfl

def allRoutes (env : ArticleEnv) (info : ArticleInfo) (lines : List Bytes) :
    List (Bytes × Route) :=
  (lines.take (splitIdx lines)).map (fun line => (line, Route.body)) ++
    routes env info (firstPushIdx (lines.drop (splitIdx lines)))
      (lines.drop (splitIdx lines)).zipIdx

theorem allRoutes_lines (env : ArticleEnv) (info : ArticleInfo) (lines : List Bytes) :
    (allRoutes env info lines).map Prod.fst = lines := by
  unfold allRoutes routes
  rw [List.map_append, List.map_map, List.map_map]
  have front : (lines.take (splitIdx lines)).map (Prod.fst ∘ fun line => (line, Route.body)) =
      lines.take (splitIdx lines) := List.map_id _
  have back : (lines.drop (splitIdx lines)).zipIdx.map (Prod.fst ∘ fun entry =>
      (entry.1, routeOf env info (firstPushIdx (lines.drop (splitIdx lines))) entry)) =
      (lines.drop (splitIdx lines)).zipIdx.map Prod.fst := rfl
  rw [front, back, List.zipIdx_map_fst, List.take_append_drop]

theorem front_filterMap {Value : Type} (front : List Bytes) (read : Bytes × Route → Option Value)
    (none : ∀ line, read (line, .body) = none) :
    (front.map fun line => (line, Route.body)).filterMap read = [] := by
  rw [List.filterMap_map]
  exact List.filterMap_eq_nil_iff.mpr fun line _ => none line

theorem routeOf_cases (env : ArticleEnv) (info : ArticleInfo) (firstPush : Option Nat)
    (entry : Bytes × Nat) :
    (routeOf env info firstPush entry = .body) ∨
      (∃ record, routeOf env info firstPush entry = .crosspost record ∧
        crosspostLog env info (cleanLine entry.1) = some record) ∨
      (routeOf env info firstPush entry = .blank ∧ cleanLine entry.1 = [] ∧
        ∃ first, firstPush = some first ∧ first ≤ entry.2) ∨
      (routeOf env info firstPush entry = .comment ∧ IsCommentLine entry.1) := by
  unfold routeOf
  cases crosspostLog env info (cleanLine entry.1) with
  | some record => exact Or.inr (Or.inl ⟨record, rfl, rfl⟩)
  | none =>
      dsimp only
      split
      · exact Or.inl rfl
      · rename_i plain
        split
        · exact Or.inl rfl
        · rename_i reached
          have after : ∃ first, firstPush = some first ∧ first ≤ entry.2 := by
            cases firstPush with
            | none => exact absurd rfl reached
            | some first => exact ⟨first, rfl, by simpa using reached⟩
          split
          · rename_i empty
            exact Or.inr (Or.inr (Or.inl ⟨rfl, empty, after⟩))
          · rename_i filled
            exact Or.inr (Or.inr (Or.inr ⟨rfl, filled, Bool.eq_false_iff.mpr plain⟩))

theorem allRoutes_getElem? {env : ArticleEnv} {info : ArticleInfo} {lines : List Bytes}
    {index : Nat} {line : Bytes} {route : Route}
    (found : (allRoutes env info lines)[index]? = some (line, route)) :
    route = .body ∨ ∃ offset, index = splitIdx lines + offset ∧
      (lines.drop (splitIdx lines))[offset]? = some line ∧
      route = routeOf env info (firstPushIdx (lines.drop (splitIdx lines))) (line, offset) := by
  unfold allRoutes at found
  rw [List.getElem?_append] at found
  split at found
  · rw [List.getElem?_map] at found
    obtain ⟨_, _, same⟩ := Option.map_eq_some_iff.mp found
    exact Or.inl (congrArg Prod.snd same).symm
  · rename_i beyond
    rw [List.length_map] at beyond found
    unfold routes at found
    rw [List.getElem?_map] at found
    obtain ⟨⟨source, number⟩, place, same⟩ := Option.map_eq_some_iff.mp found
    rw [List.getElem?_zipIdx] at place
    obtain ⟨source, here, both⟩ := Option.map_eq_some_iff.mp place
    cases both
    cases same
    have within : splitIdx lines ≤ lines.length := by
      by_contra outside
      rw [List.drop_of_length_le (by omega)] at here
      cases here
    have length : (lines.take (splitIdx lines)).length = splitIdx lines := by
      rw [List.length_take]
      omega
    rw [length] at beyond here ⊢
    refine Or.inr ⟨index - splitIdx lines, by omega, here, ?_⟩
    rw [Nat.zero_add]

theorem allRoutes_commentLine {env : ArticleEnv} {info : ArticleInfo} {lines : List Bytes} :
    ∀ line ∈ (allRoutes env info lines).filterMap Route.commentLine, IsCommentLine line := by
  intro line member
  obtain ⟨⟨source, route⟩, routed, read⟩ := List.mem_filterMap.mp member
  obtain ⟨index, place⟩ := List.mem_iff_getElem?.mp routed
  have isComment : route = .comment ∧ source = line := by
    cases route with
    | comment => exact ⟨rfl, Option.some.inj read⟩
    | body => cases read
    | crosspost record => cases read
    | blank => cases read
  obtain ⟨rfl, rfl⟩ := isComment
  rcases allRoutes_getElem? place with body | ⟨offset, _index, _here, same⟩
  · cases body
  · rcases routeOf_cases env info (firstPushIdx (lines.drop (splitIdx lines))) (source, offset)
      with body | ⟨record, crosspost, _⟩ | ⟨blank, _⟩ | ⟨_comment, proper⟩
    · rw [body] at same
      cases same
    · rw [crosspost] at same
      cases same
    · rw [blank] at same
      cases same
    · exact proper

theorem allRoutes_blank {env : ArticleEnv} {info : ArticleInfo} {lines : List Bytes}
    {index : Nat} {line : Bytes}
    (found : (allRoutes env info lines)[index]? = some (line, .blank)) :
    cleanLine line = [] ∧ ∃ earlier push, earlier < index ∧ lines[earlier]? = some push ∧
      isPushLine (cleanLine push) = true := by
  rcases allRoutes_getElem? found with body | ⟨offset, place, here, same⟩
  · cases body
  · rcases routeOf_cases env info (firstPushIdx (lines.drop (splitIdx lines))) (line, offset)
      with body | ⟨record, crosspost, _⟩ | ⟨_blank, empty, first, pushed, upTo⟩ | ⟨comment, _⟩
    · rw [body] at same
      cases same
    · rw [crosspost] at same
      cases same
    · refine ⟨empty, ?_⟩
      obtain ⟨push, pushPlace, isPush⟩ := firstPushIdx_spec pushed
      have different : first ≠ offset := by
        intro equal
        rw [equal, here] at pushPlace
        cases pushPlace
        rw [empty, isPushLine_nil] at isPush
        cases isPush
      rw [List.getElem?_drop] at pushPlace
      dsimp only at upTo
      exact ⟨splitIdx lines + first, push, by omega, pushPlace, isPush⟩
    · rw [comment] at same
      cases same

theorem allRoutes_crosspost {env : ArticleEnv} {info : ArticleInfo} {lines : List Bytes}
    {index : Nat} {line : Bytes} {record : ParsedCrosspost}
    (found : (allRoutes env info lines)[index]? = some (line, .crosspost record)) :
    crosspostLog env info (cleanLine line) = some record := by
  rcases allRoutes_getElem? found with body | ⟨offset, _place, _here, same⟩
  · cases body
  · rcases routeOf_cases env info (firstPushIdx (lines.drop (splitIdx lines))) (line, offset)
      with body | ⟨other, crosspost, logged⟩ | ⟨blank, _⟩ | ⟨comment, _⟩
    · rw [body] at same
      cases same
    · rw [crosspost] at same
      cases same
      exact logged
    · rw [blank] at same
      cases same
    · rw [comment] at same
      cases same

theorem routed_eq (env : ArticleEnv) (info : ArticleInfo) (lines : List Bytes) :
    (lines.drop (splitIdx lines)).zipIdx.foldl
      (routeLine env info (firstPushIdx (lines.drop (splitIdx lines))))
      ⟨lines.take (splitIdx lines),
        (lines.take (splitIdx lines)).filterMap (originNote info), []⟩ =
      ⟨(allRoutes env info lines).filterMap Route.bodyLine,
        (lines.take (splitIdx lines)).filterMap (originNote info) ++
          (allRoutes env info lines).filterMap Route.record?,
        (allRoutes env info lines).filterMap Route.commentLine⟩ := by
  rw [routeLines_eq]
  unfold allRoutes
  have whole : ((lines.take (splitIdx lines)).map fun line => (line, Route.body)).filterMap
      Route.bodyLine = lines.take (splitIdx lines) := by
    rw [List.filterMap_map]
    exact List.filterMap_some
  rw [List.filterMap_append, List.filterMap_append, List.filterMap_append, whole,
    front_filterMap _ _ fun _ => rfl, front_filterMap _ _ fun _ => rfl]
  rfl

/-- Every line has one fate, and the article is made of the lines by their fates. -/
structure LinesAssigned (env : ArticleEnv) (info : ArticleInfo) (lines : List Bytes)
    (article : ParsedArticle) (notes : List ParsedCrosspost) (fates : List (Bytes × Fate)) :
    Prop where
  sameLines : fates.map Prod.fst = lines
  body : article.bodyContent = finishBody (fates.filterMap Fate.bodyLine)
  comments : article.comments = fates.filterMap Fate.comment?
  crossposts : article.crossposts = notes ++ fates.filterMap Fate.record?
  ofComment : ∀ line comment, (line, Fate.comment comment) ∈ fates →
    CommentOf env info.defaultAuthor line comment
  ofCrosspost : ∀ line record, (line, Fate.crosspost record) ∈ fates →
    crosspostLog env info (cleanLine line) = some record
  blanks : ∀ (index : Nat) (line : Bytes), fates[index]? = some (line, Fate.blank) →
    cleanLine line = [] ∧ ∃ earlier push, earlier < index ∧ lines[earlier]? = some push ∧
      isPushLine (cleanLine push) = true
  editMarks : ∀ (index : Nat) (line : Bytes), fates[index]? = some (line, Fate.editMark) →
    isEditMark line = true ∧ ∃ later following, index < later ∧
      fates[later]? = some (following, Fate.body) ∧ isEditMark following = true

def TimesForward (info : ArticleInfo) (comments : List ParsedComment) : Prop :=
  comments.Pairwise (fun left right => left.ctime ≤ right.ctime) ∧
    ∀ comment ∈ comments, info.postCtime ≤ comment.ctime

/-- No time that the lines can give is near the end of the 64-bit range. -/
def TimesFit (env : ArticleEnv) (info : ArticleInfo) (lines : List Bytes) : Prop :=
  ∃ bound : Int, info.postCtime.toInt ≤ bound ∧ bound + lines.length < 2 ^ 63 ∧
    DatesUpTo env lines (Set.Icc (firstDate env info).year
      ((firstDate env info).year + lines.length)) bound

theorem FateOf.routed {env : ArticleEnv} {defaultAuthor : Bytes} {routed : List (Bytes × Route)}
    {fates : List (Bytes × Fate)}
    (matched : List.Forall₂ (FateOf env defaultAuthor) routed fates) {index : Nat}
    {entry : Bytes × Fate} (found : fates[index]? = some entry) :
    ∃ source, routed[index]? = some source ∧ FateOf env defaultAuthor source entry := by
  induction matched generalizing index with
  | nil => cases found
  | cons here _ ih =>
      cases index with
      | zero =>
          cases found
          exact ⟨_, rfl, here⟩
      | succ index => exact ih found

theorem linesAssigned_of_fates {env : ArticleEnv} {info : ArticleInfo} {lines : List Bytes}
    {article : ParsedArticle} {fates : List (Bytes × Fate)}
    (matched : List.Forall₂ (FateOf env info.defaultAuthor) (allRoutes env info lines) fates)
    (body : article.bodyContent =
      finishBody (keepLastEdit ((allRoutes env info lines).filterMap Route.bodyLine)))
    (comments : article.comments = fates.filterMap Fate.comment?)
    (crossposts : article.crossposts = (lines.take (splitIdx lines)).filterMap (originNote info) ++
      (allRoutes env info lines).filterMap Route.record?) :
    LinesAssigned env info lines article
      ((lines.take (splitIdx lines)).filterMap (originNote info)) (markEdits fates) := by
  obtain ⟨sameLines, sameBody, sameRecords⟩ := fates_lines matched
  obtain ⟨markedLines, markedBody, markedComments, markedRecords⟩ := markEdits_lines fates
  -- Only a body line becomes an edit mark, so that every other fate has its route.
  have origin : ∀ (index : Nat) (line : Bytes) (fate : Fate),
      (markEdits fates)[index]? = some (line, fate) → fate ≠ .editMark → ∃ source, (allRoutes env info lines)[index]? = some source ∧
        FateOf env info.defaultAuthor source (line, fate) := by
    intro index line fate found other
    rcases markEdits_getElem? fates index line fate found with same | ⟨_, dropped, _⟩
    · exact FateOf.routed matched same
    · exact absurd dropped other
  refine ⟨?_, ?_, ?_, ?_, ?_, ?_, ?_, ?_⟩
  · rw [markedLines, sameLines, allRoutes_lines]
  · rw [body, markedBody, sameBody]
  · rw [comments, markedComments]
  · rw [crossposts, markedRecords, sameRecords]
  · intro line comment member
    obtain ⟨index, place⟩ := List.mem_iff_getElem?.mp member
    obtain ⟨source, _routed, fate⟩ := origin index line _ place nofun
    cases fate with
    | comment _ _ ofLine => exact ofLine
  · intro line record member
    obtain ⟨index, place⟩ := List.mem_iff_getElem?.mp member
    obtain ⟨source, routed, fate⟩ := origin index line _ place nofun
    cases fate with
    | crosspost => exact allRoutes_crosspost routed
  · intro index line place
    obtain ⟨source, routed, fate⟩ := origin index line _ place nofun
    cases fate with
    | blank => exact allRoutes_blank routed
  · intro index line place
    rcases markEdits_getElem? fates index line .editMark place with same | ⟨_, _, mark, later⟩
    · obtain ⟨source, _routed, fate⟩ := FateOf.routed matched same
      cases fate
    · exact ⟨mark, later⟩

/-- Every line of an article goes to the body, to one comment or to one crosspost, and the
comments' times go forward. -/
theorem parseArticleText_assigns (env : ArticleEnv) (rawBytes : Bytes) (info : ArticleInfo)
    (isBig5 : Bool) (fit : TimesFit env info (articleLines env rawBytes isBig5)) :
    (∃ fates, LinesAssigned env info (articleLines env rawBytes isBig5)
      (parseArticleText env rawBytes info isBig5 true)
      (((articleLines env rawBytes isBig5).take
        (splitIdx (articleLines env rawBytes isBig5))).filterMap (originNote info)) fates) ∧
      TimesForward info (parseArticleText env rawBytes info isBig5 true).comments := by
  unfold parseArticleText
  generalize articleLines env rawBytes isBig5 = lines at *
  have proper : ∀ line ∈ (allRoutes env info lines).filterMap Route.commentLine,
      IsCommentLine line := allRoutes_commentLine
  obtain ⟨comments, paired, body, added, times⟩ := parseComments_run env info.defaultAuthor proper
    ⟨(allRoutes env info lines).filterMap Route.bodyLine, [], info.postCtime, firstDate env info⟩
  obtain ⟨fates, matched, sameComments⟩ := exists_fates paired
  rw [List.nil_append] at added
  have parsedComments : (parseLines env info true lines).comments = comments := by
    unfold parseLines
    dsimp only
    rw [routed_eq, if_pos rfl]
    exact added
  have parsedBody : (parseLines env info true lines).bodyContent =
      finishBody (keepLastEdit ((allRoutes env info lines).filterMap Route.bodyLine)) := by
    unfold parseLines
    dsimp only
    rw [routed_eq, dedupEditMarks_eq, body]
  have parsedCrossposts : (parseLines env info true lines).crossposts =
      (lines.take (splitIdx lines)).filterMap (originNote info) ++
        (allRoutes env info lines).filterMap Route.record? := by
    unfold parseLines
    dsimp only
    rw [routed_eq]
  refine ⟨⟨markEdits fates, linesAssigned_of_fates matched parsedBody
    (parsedComments.trans sameComments.symm) parsedCrossposts⟩, ?_⟩
  rw [parsedComments]
  obtain ⟨bound, post, room, dates⟩ := fit
  have among : ∀ line ∈ (allRoutes env info lines).filterMap Route.commentLine, line ∈ lines := by
    intro line member
    obtain ⟨⟨source, route⟩, routed, read⟩ := List.mem_filterMap.mp member
    rw [← allRoutes_lines env info lines]
    cases route with
    | comment =>
        cases read
        exact List.mem_map_of_mem routed
    | body => cases read
    | crosspost record => cases read
    | blank => cases read
  have fewer : ((allRoutes env info lines).filterMap Route.commentLine).length ≤ lines.length := by
    refine (List.length_filterMap_le _ _).trans (le_of_eq ?_)
    have same := congrArg List.length (allRoutes_lines env info lines)
    rwa [List.length_map] at same
  exact times _ _ bound (fun line member => dates line (among line member)) (le_refl _)
    (by dsimp only; omega) post (by omega)

section Sample

def sampleEnv : ArticleEnv where
  decodeSGR66 := id
  calendar := fun _ => (2024, 9, 30)
  unixTime := fun year month day hour _ _ =>
    if year = 2024 ∧ month = 10 ∧ day = 1 ∧ hour = 12 then 1727784000 else 0
  parseIP := fun _ => false
  equalFold := fun left right => left = right

def sampleInfo (postCtime : Int64) : ArticleInfo :=
  ⟨utf8 "amy", postCtime, utf8 "Test", utf8 "M.1.A"⟩

def noteText : Bytes := utf8 "※ [本文轉錄自 Old 看板]\n--"

def pushText : Bytes := utf8 "--\n推 bob: a 10/01 12:00"

theorem noteText_lines : articleLines sampleEnv noteText false =
    [utf8 "※ [本文轉錄自 Old 看板]", utf8 "--"] := by
  decide

theorem noteText_parsed :
    (parseArticleText sampleEnv noteText (sampleInfo 1727700000) false true).bodyContent =
        noteText ++ [newline] ∧
      (parseArticleText sampleEnv noteText (sampleInfo 1727700000) false true).crossposts.length =
        1 := by
  decide

theorem fates_apart (fates : List (Bytes × Fate)) :
    (fates.filterMap Fate.bodyLine).length + (fates.filterMap Fate.record?).length ≤
      fates.length := by
  induction fates with
  | nil => exact le_refl _
  | cons entry rest ih =>
      obtain ⟨line, fate⟩ := entry
      cases fate <;>
        simp only [List.filterMap_cons, Fate.bodyLine, Fate.record?, List.length_cons] <;> omega

/-- A note of origin is in the body and gives a crosspost as well; and after the greatest
time the times start again from the least. -/
theorem note_assigned_twice :
    (¬ ∃ fates, LinesAssigned sampleEnv (sampleInfo 1727700000)
        (articleLines sampleEnv noteText false)
        (parseArticleText sampleEnv noteText (sampleInfo 1727700000) false true) [] fates) ∧
      ¬ TimesForward (sampleInfo Int64.maxValue)
        (parseArticleText sampleEnv pushText (sampleInfo Int64.maxValue) false true).comments := by
  constructor
  · rintro ⟨fates, assigned⟩
    have two := congrArg List.length assigned.sameLines
    have records := congrArg List.length assigned.crossposts
    have body := assigned.body
    rw [noteText_lines, List.length_map] at two
    rw [noteText_parsed.2, List.nil_append] at records
    rw [noteText_parsed.1] at body
    have among : ∀ line ∈ fates.filterMap Fate.bodyLine,
        line ∈ [utf8 "※ [本文轉錄自 Old 看板]", utf8 "--"] := by
      intro line member
      obtain ⟨⟨source, fate⟩, inside, read⟩ := List.mem_filterMap.mp member
      rw [← noteText_lines, ← assigned.sameLines]
      cases fate with
      | body =>
          cases read
          exact List.mem_map_of_mem inside
      | comment parsed => cases read
      | crosspost record => cases read
      | blank => cases read
      | editMark => cases read
    have few := fates_apart fates
    have length : [utf8 "※ [本文轉錄自 Old 看板]", utf8 "--"].length = 2 := rfl
    have short : (fates.filterMap Fate.bodyLine).length ≤ 1 := by omega
    generalize fates.filterMap Fate.bodyLine = bodyLines at body among short
    cases bodyLines with
    | nil => exact absurd body (by decide)
    | cons line rest =>
        have none : rest = [] := by
          rw [List.length_cons] at short
          exact List.eq_nil_of_length_eq_zero (by omega)
        subst none
        rcases List.mem_pair.mp (among line List.mem_cons_self) with rfl | rfl
        · exact absurd body (by decide)
        · exact absurd body (by decide)
  · intro forward
    have first : (parseArticleText sampleEnv pushText (sampleInfo Int64.maxValue) false
        true).comments.any (fun comment => comment.ctime < Int64.maxValue) = true := by
      decide
    obtain ⟨comment, member, early⟩ := List.any_eq_true.mp first
    exact absurd (forward.2 comment member) (not_le.mpr (of_decide_eq_true early))

theorem pushText_assigned :
    (∃ fates, LinesAssigned sampleEnv (sampleInfo 1727700000)
      (articleLines sampleEnv pushText false)
      (parseArticleText sampleEnv pushText (sampleInfo 1727700000) false true)
      (((articleLines sampleEnv pushText false).take
        (splitIdx (articleLines sampleEnv pushText false))).filterMap
          (originNote (sampleInfo 1727700000))) fates) ∧
      TimesForward (sampleInfo 1727700000)
        (parseArticleText sampleEnv pushText (sampleInfo 1727700000) false true).comments := by
  apply parseArticleText_assigns
  have two : (articleLines sampleEnv pushText false).length = 2 := by decide
  refine ⟨1727784000, by decide, by rw [two]; decide, ?_⟩
  intro _ _ _ read _ _ year _
  unfold ReadDate.inYear sampleEnv
  dsimp only
  split
  · decide
  · decide

end Sample

end Pttbbs.PostSvc
