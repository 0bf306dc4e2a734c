/-
Which request lines stop the service.

No line makes a handler read an argument that is not there.  A length that is negative, or
more than the runtime allocates, stops the service when the handler comes to it.
-/

import Pttbbs.PostSvc.Ipc
import Mathlib.Data.List.GetD

namespace Pttbbs.PostSvc.Ipc

open Pttbbs.Lib

/-! ### Handlers without a panic -/

section Avoids

variable {α β : Type} {bad : Panic → Prop} {parts : List Bytes} {index count : Nat}

def Avoids (bad : Panic → Prop) (handled : Handled α) : Prop :=
  ∀ why, bad why → handled ≠ .error (.panic why)

theorem avoids_ok (value : α) : Avoids bad (.ok value : Handled α) := fun _ _ => nofun

theorem avoids_pure (value : α) : Avoids bad (pure value : Handled α) := fun _ _ => nofun

theorem avoids_reply (text : Bytes) : Avoids bad (reply text : Handled α) := fun _ _ => nofun

theorem Avoids.bind {first : Handled α} {next : α → Handled β} (avoids : Avoids bad first)
    (others : ∀ value, first = .ok value → Avoids bad (next value)) :
    Avoids bad (first >>= next) := by
  cases done : first with
  | ok value => exact others value done
  | error stop =>
      rintro why isBad panicked
      cases panicked
      exact avoids why isBad done

theorem Avoids.map {first : Handled α} (avoids : Avoids bad first) (read : α → β) :
    Avoids bad (first.map read) := by
  cases done : first with
  | ok value => exact avoids_ok _
  | error stop =>
      rintro why isBad panicked
      cases panicked
      exact avoids why isBad done

theorem part_eq (inside : index < parts.length) : part parts index = .ok (parts.getD index []) := by
  unfold part
  rw [List.getElem?_eq_getElem inside, List.getD_eq_getElem _ _ inside]

theorem avoids_part (inside : index < parts.length) : Avoids bad (part parts index) := by
  rw [part_eq inside]
  exact avoids_ok _

theorem avoids_joinFrom (inside : index ≤ parts.length) : Avoids bad (joinFrom parts index) := by
  unfold joinFrom
  rw [if_pos inside]
  exact avoids_ok _

theorem Avoids.atLeast {name : String} {next : Unit → Handled β}
    (others : count ≤ parts.length → Avoids bad (next ())) :
    Avoids bad (Ipc.atLeast parts count name >>= next) := by
  unfold Ipc.atLeast
  split
  · exact avoids_reply _
  · rename_i enough
    exact others (Nat.le_of_not_lt enough)

theorem avoids_optional {default : α} {read : Bytes → α} (order : index < count) :
    Avoids bad (optional parts count index default read) := by
  unfold optional
  split
  · exact (avoids_part (by omega)).map read
  · exact avoids_ok _

theorem avoids_reasonFrom (order : index < count) : Avoids bad (reasonFrom parts count index) := by
  unfold reasonFrom
  split
  · exact avoids_joinFrom (by omega)
  · exact avoids_ok _

theorem avoids_fileAt (inside : index + 1 < parts.length) : Avoids bad (fileAt parts index) :=
  (avoids_part (by omega)).bind fun _ _ => (avoids_part inside).bind fun _ _ => avoids_ok _

theorem avoids_editorAt (inside : index + 1 < parts.length) : Avoids bad (editorAt parts index) :=
  (avoids_part (by omega)).bind fun _ _ => (avoids_part inside).bind fun _ _ => avoids_ok _

theorem avoids_postIDAt (inside : index < parts.length) : Avoids bad (postIDAt parts index) := by
  refine (avoids_part inside).bind fun text _ => ?_
  split
  · exact avoids_reply _
  · exact avoids_ok _

theorem avoids_seqAt (inside : index < parts.length) : Avoids bad (seqAt parts index) := by
  refine (avoids_part inside).bind fun text _ => ?_
  split
  · exact avoids_reply _
  · exact avoids_ok _

theorem avoids_readPayload {env : Env} {what : String} {reader : Bytes} {length : Int64}
    (fine : ¬ bad .makesliceLenOutOfRange) : Avoids bad (readPayload env what reader length) := by
  unfold readPayload
  split
  · rintro why isBad panicked
    cases panicked
    exact fine isBad
  · split
    · exact avoids_ok _
    · exact avoids_reply _

theorem avoids_syncModes (modes : List Bytes) (options : SyncDirOptions) :
    Avoids bad (syncModes modes options) := by
  induction modes generalizing options with
  | nil => exact avoids_ok _
  | cons mode modes ih =>
      refine Avoids.bind ?_ fun options _ => ih options
      unfold syncMode
      split
      · exact avoids_ok _
      · split
        · exact avoids_ok _
        · split
          · exact avoids_ok _
          · split
            · exact avoids_ok _
            · exact avoids_reply _

end Avoids

def lengthPlaces (count : Nat) : Command → List Nat
  | .postFile => [8]
  | .post => [9, 10]
  | .comment => [7]
  | .updatePost => if 7 ≤ count then [5, 6] else [4, 5]
  | .updatePostFile => if 8 ≤ count then [6, 7] else [5, 6]
  | .updatePostTitle => [4]
  | .updatePostTitleFile => [5]
  | .updateComment => [5]
  | .updateCommentFile => [6]
  | _ => []

def Command.hasPayload : Command → Bool
  | .postFile | .post | .comment | .updatePost | .updatePostFile | .updatePostTitle
  | .updatePostTitleFile | .updateComment | .updateCommentFile => true
  | _ => false

theorem avoids_editedPost {bad : Panic → Prop} {env : Env} {parts : List Bytes} {reader : Bytes}
    {target : Target} {editor : Editor} {index : Nat} {lines : Bytes → Bytes}
    (fine : ¬ bad .makesliceLenOutOfRange) (inside : index + 1 < parts.length) :
    Avoids bad (editedPost env parts reader target editor index lines) := by
  unfold editedPost
  split
  · exact (avoids_part (by omega)).bind fun _ _ => (avoids_part (by omega)).bind fun _ _ =>
      (avoids_part (by omega)).bind fun _ _ => (avoids_readPayload fine).bind fun _ _ =>
      (avoids_readPayload fine).bind fun _ _ => avoids_pure _
  · exact (avoids_part (by omega)).bind fun _ _ => (avoids_part (by omega)).bind fun _ _ =>
      (avoids_readPayload fine).bind fun _ _ => (avoids_readPayload fine).bind fun _ _ =>
      avoids_pure _

theorem avoids_handle {bad : Panic → Prop} {env : Env} {parts : List Bytes} {reader : Bytes}
    {command : Command} (one : 1 ≤ parts.length)
    (fine : command.hasPayload = true → ¬ bad .makesliceLenOutOfRange) :
    Avoids bad (handle env parts reader command) := by
  cases command
  all_goals
    unfold handle
    dsimp only [backup, postFile, post, comment, voteFile, vote, votes, votesFile,
      resetVotesFile, getPost, getPostID, purgeComments, purgePosts, list, render, importBoard,
      setMetaFile, syncDir, renderFile, renderCommunity, fetchPostFile, updatePost,
      updatePostFile, updatePostTitle, updatePostTitleFile, updateComment, updateCommentFile,
      deleteCommunity, purgePost, purgePostFile, deletePost, deletePostFile, undeletePost,
      undeletePostFile, deleteComment, deleteCommentFile, undeleteComment, undeleteCommentFile,
      comments, commentsFile, commentCount, commentCountFile, postHistory, postHistoryFile,
      commentHistory, commentHistoryFile, crosspost, crossposts, origin]
    repeat' with_reducible first
      | exact avoids_pure _
      | exact avoids_ok _
      | exact avoids_reply _
      | refine Avoids.atLeast fun enough => ?_
      | refine Avoids.bind (avoids_part (by omega)) fun _ _ => ?_
      | refine Avoids.bind (avoids_optional (by decide)) fun _ _ => ?_
      | refine Avoids.bind (avoids_fileAt (by omega)) fun _ _ => ?_
      | refine Avoids.bind (avoids_editorAt (by omega)) fun _ _ => ?_
      | refine Avoids.bind (avoids_postIDAt (by omega)) fun _ _ => ?_
      | refine Avoids.bind (avoids_seqAt (by omega)) fun _ _ => ?_
      | refine Avoids.bind (avoids_reasonFrom (by decide)) fun _ _ => ?_
      | refine Avoids.bind (avoids_joinFrom (by omega)) fun _ _ => ?_
      | refine Avoids.bind (avoids_readPayload (fine rfl)) fun _ _ => ?_
      | refine Avoids.bind (avoids_syncModes _ _) fun _ _ => ?_
      | exact avoids_editedPost (fine rfl) (by omega)
      | split

/-! ### Lengths -/

def fewestArgs : Command → Nat
  | .postFile => 9
  | .post => 11
  | .comment => 8
  | .updatePost => 6
  | .updatePostFile => 7
  | .updatePostTitle => 5
  | .updatePostTitleFile => 6
  | .updateComment => 6
  | .updateCommentFile => 7
  | _ => 0

/-- The command names a post by its id, and stops if that is no number. -/
def needsPostID : Command → Bool
  | .updatePost | .updatePostTitle | .updateComment => true
  | _ => false

def lengthsOf (parts : List Bytes) (command : Command) : List Int64 :=
  if fewestArgs command ≤ parts.length ∧
      (needsPostID command → (parseUint? 64 (parts.getD 1 [])).isSome) then
    (lengthPlaces parts.length command).map fun index => atoi (parts.getD index [])
  else []

/-- Every length is neither negative nor too large, as far as the payload goes: one behind a
payload that is not complete is not looked at. -/
def Fits (env : Env) : Bytes → List Int64 → Prop
  | _, [] => True
  | reader, length :: lengths =>
      (0 ≤ length.toInt ∧ length.toInt ≤ env.maxAlloc) ∧
        (length.toInt.toNat ≤ reader.length →
          Fits env (reader.drop length.toInt.toNat) lengths)

section Payloads

variable {α β : Type} {env : Env} {parts : List Bytes} {reader : Bytes} {index count : Nat}

def Calm (handled : Handled α) : Prop := Avoids (fun _ => True) handled

theorem calm_pure (value : α) : Calm (pure value : Handled α) := avoids_pure value

theorem calm_readPayload_bind {what : String} {length : Int64} {next : Bytes × Bytes → Handled β} :
    Calm (readPayload env what reader length >>= next) ↔
      (0 ≤ length.toInt ∧ length.toInt ≤ env.maxAlloc) ∧
        (length.toInt.toNat ≤ reader.length →
          Calm (next (reader.take length.toInt.toNat, reader.drop length.toInt.toNat))) := by
  unfold readPayload
  split
  · rename_i outOfRange
    constructor
    · intro calm
      exact absurd rfl (calm .makesliceLenOutOfRange trivial)
    · rintro ⟨range, _⟩
      omega
  · rename_i inRange
    have range : 0 ≤ length.toInt ∧ length.toInt ≤ env.maxAlloc := by omega
    split
    · rename_i complete
      exact ⟨fun calm => ⟨range, fun _ => calm⟩, fun calm => calm.2 complete⟩
    · rename_i short
      exact ⟨fun _ => ⟨range, fun complete => absurd complete short⟩, fun _ => avoids_reply _⟩

theorem part_bind {next : Bytes → Handled β} (inside : index < parts.length) :
    (part parts index >>= next) = next (parts.getD index []) := by
  rw [part_eq inside]
  rfl

theorem editorAt_bind {next : Editor → Handled β} (inside : index + 1 < parts.length) :
    (editorAt parts index >>= next) =
      next ⟨parts.getD index [], parsePersonID (parts.getD (index + 1) [])⟩ := by
  unfold editorAt
  rw [part_eq inside, part_eq (by omega)]
  rfl

theorem fileAt_bind {next : Target → Handled β} (inside : index + 1 < parts.length) :
    (fileAt parts index >>= next) =
      next (.file (parts.getD index []) (parts.getD (index + 1) [])) := by
  unfold fileAt
  rw [part_eq inside, part_eq (by omega)]
  rfl

theorem atLeast_bind {name : String} {next : Unit → Handled β} (enough : count ≤ parts.length) :
    (Ipc.atLeast parts count name >>= next) = next () := by
  unfold Ipc.atLeast
  rw [if_neg (by omega)]
  rfl

theorem calm_atLeast_few {name : String} {next : Unit → Handled β} (few : parts.length < count) :
    Calm (Ipc.atLeast parts count name >>= next) :=
  Avoids.atLeast fun enough => by omega

theorem calm_postIDAt_bind {next : UInt64 → Handled β} (inside : index < parts.length) :
    Calm (postIDAt parts index >>= next) ↔
      ∀ postID, parseUint? 64 (parts.getD index []) = some postID →
        Calm (next (UInt64.ofNat postID)) := by
  unfold postIDAt
  rw [bind_assoc, part_bind inside]
  cases parsed : parseUint? 64 (parts.getD index []) with
  | none => exact ⟨fun _ => nofun, fun _ => avoids_reply _⟩
  | some postID =>
      refine ⟨fun calm other same => ?_, fun calm => calm postID rfl⟩
      cases same
      exact calm

theorem calm_one {what : String} {length : Int64} {next : Bytes × Bytes → Handled β}
    (calm : ∀ payload, Calm (next payload)) :
    Calm (readPayload env what reader length >>= next) ↔ Fits env reader [length] := by
  rw [calm_readPayload_bind]
  unfold Fits
  exact and_congr_right fun _ => ⟨fun _ _ => trivial, fun _ _ => calm _⟩

theorem calm_two {first second : String} {titleLen contentLen : Int64}
    {value : Bytes × Bytes → Bytes × Bytes → α} :
    Calm (readPayload env first reader titleLen >>= fun title =>
      readPayload env second title.2 contentLen >>= fun content => pure (value title content)) ↔
      Fits env reader [titleLen, contentLen] := by
  rw [calm_readPayload_bind]
  rw [Fits]
  exact and_congr_right fun _ => forall_congr' fun _ => calm_one fun _ => calm_pure _

theorem calm_editedPost {target : Target} {editor : Editor} {lines : Bytes → Bytes}
    (inside : index + 1 < parts.length) :
    Calm (editedPost env parts reader target editor index lines) ↔
      Fits env reader ((if index + 3 ≤ parts.length then [index + 1, index + 2]
        else [index, index + 1]).map fun index => atoi (parts.getD index [])) := by
  unfold editedPost
  split
  · rw [part_bind (by omega), part_bind (by omega), part_bind (by omega)]
    exact calm_two
  · rw [part_bind (by omega), part_bind (by omega)]
    exact calm_two

theorem lengthsOf_few {command : Command} (few : parts.length < fewestArgs command) :
    lengthsOf parts command = [] := by
  unfold lengthsOf
  rw [if_neg (by omega)]

theorem lengthsOf_file {command : Command} (enough : fewestArgs command ≤ parts.length)
    (named : needsPostID command = false) :
    lengthsOf parts command =
      (lengthPlaces parts.length command).map fun index => atoi (parts.getD index []) := by
  unfold lengthsOf
  rw [if_pos ⟨enough, fun needs => by rw [named] at needs; cases needs⟩]

theorem fits_lengthsOf_id {command : Command} (enough : fewestArgs command ≤ parts.length)
    (needs : needsPostID command = true) :
    Fits env reader (lengthsOf parts command) ↔
      ∀ postID, parseUint? 64 (parts.getD 1 []) = some postID →
        Fits env reader
          ((lengthPlaces parts.length command).map fun index => atoi (parts.getD index [])) := by
  unfold lengthsOf
  cases parsed : parseUint? 64 (parts.getD 1 []) with
  | none =>
      rw [if_neg (fun both => by cases both.2 needs)]
      exact ⟨fun _ => nofun, fun _ => trivial⟩
  | some postID =>
      rw [if_pos ⟨enough, fun _ => rfl⟩]
      exact ⟨fun fits _ _ => fits, fun fits => fits postID rfl⟩

end Payloads

theorem calm_handle_payload {env : Env} {parts : List Bytes} {reader : Bytes} {command : Command}
    (payload : command.hasPayload = true) :
    Calm (handle env parts reader command) ↔ Fits env reader (lengthsOf parts command) := by
  by_cases enough : fewestArgs command ≤ parts.length
  · cases command
    case postFile =>
      have bound : 9 ≤ parts.length := enough
      rw [lengthsOf_file enough rfl]
      unfold handle
      simp (disch := omega) only [postFile, atLeast_bind, part_bind, editorAt_bind]
      exact calm_one fun _ => calm_pure _
    case post =>
      have bound : 11 ≤ parts.length := enough
      rw [lengthsOf_file enough rfl]
      unfold handle
      simp (disch := omega) only [post, atLeast_bind, part_bind, editorAt_bind]
      exact calm_two
    case comment =>
      have bound : 8 ≤ parts.length := enough
      rw [lengthsOf_file enough rfl]
      unfold handle
      simp (disch := omega) only [comment, atLeast_bind, part_bind, editorAt_bind]
      exact calm_one fun _ => (avoids_optional (by decide)).bind fun _ _ => calm_pure _
    case updatePost =>
      have bound : 6 ≤ parts.length := enough
      rw [fits_lengthsOf_id enough rfl]
      unfold handle
      simp (disch := omega) only [updatePost, atLeast_bind]
      rw [calm_postIDAt_bind (by omega)]
      refine forall_congr' fun postID => forall_congr' fun _ => ?_
      rw [editorAt_bind (by omega)]
      exact calm_editedPost (by omega)
    case updatePostFile =>
      have bound : 7 ≤ parts.length := enough
      rw [lengthsOf_file enough rfl]
      unfold handle
      simp (disch := omega) only [updatePostFile, atLeast_bind, fileAt_bind,
        editorAt_bind]
      exact calm_editedPost (by omega)
    case updatePostTitle =>
      have bound : 5 ≤ parts.length := enough
      rw [fits_lengthsOf_id enough rfl]
      unfold handle
      simp (disch := omega) only [updatePostTitle, atLeast_bind]
      rw [calm_postIDAt_bind (by omega)]
      refine forall_congr' fun postID => forall_congr' fun _ => ?_
      rw [editorAt_bind (by omega), part_bind (by omega)]
      exact calm_one fun _ => calm_pure _
    case updatePostTitleFile =>
      have bound : 6 ≤ parts.length := enough
      rw [lengthsOf_file enough rfl]
      unfold handle
      simp (disch := omega) only [updatePostTitleFile, atLeast_bind, fileAt_bind,
        editorAt_bind, part_bind]
      exact calm_one fun _ => calm_pure _
    case updateComment =>
      have bound : 6 ≤ parts.length := enough
      rw [fits_lengthsOf_id enough rfl]
      unfold handle
      simp (disch := omega) only [updateComment, atLeast_bind]
      rw [calm_postIDAt_bind (by omega)]
      refine forall_congr' fun postID => forall_congr' fun _ => ?_
      rw [part_bind (by omega), editorAt_bind (by omega), part_bind (by omega)]
      exact calm_one fun _ => calm_pure _
    case updateCommentFile =>
      have bound : 7 ≤ parts.length := enough
      rw [lengthsOf_file enough rfl]
      unfold handle
      simp (disch := omega) only [updateCommentFile, atLeast_bind, fileAt_bind,
        editorAt_bind, part_bind]
      exact calm_one fun _ => calm_pure _
    all_goals cases payload
  · rw [lengthsOf_few (by omega)]
    refine ⟨fun _ => trivial, fun _ => ?_⟩
    cases command
    all_goals first
      | exact calm_atLeast_few (Nat.lt_of_not_le enough)
      | cases payload

/-! ### Lines -/

/-- The lengths of the line that a client sends, if it is a command at all. -/
def LengthsFit (env : Env) (stream : Bytes) : Prop :=
  match readString stream with
  | none => True
  | some (line, reader) =>
      let parts := splitOn blank (trimRight [carriageReturn, newline] line)
      match commandOf (env.toUpper (parts.getD 0 [])) with
      | none => True
      | some command => parts.getD 0 [] = [] ∨ Fits env reader (lengthsOf parts command)

theorem lengthsOf_quiet {parts : List Bytes} {command : Command}
    (quiet : command.hasPayload = false) : lengthsOf parts command = [] := by
  have none : lengthPlaces parts.length command = [] := by
    cases command
    all_goals first
      | rfl
      | cases quiet
  unfold lengthsOf
  rw [none, List.map_nil, ite_self]

theorem calm_handle_iff {env : Env} {parts : List Bytes} {reader : Bytes} {command : Command}
    (one : 1 ≤ parts.length) :
    Calm (handle env parts reader command) ↔ Fits env reader (lengthsOf parts command) := by
  cases payload : command.hasPayload with
  | true => exact calm_handle_payload payload
  | false =>
      rw [lengthsOf_quiet payload]
      refine ⟨fun _ => trivial, fun _ => avoids_handle one fun reads => ?_⟩
      rw [payload] at reads
      cases reads

/-- A handler never reads an argument that is not there, and it ends without a panic exactly
when no length in the line is negative or more than can be allocated. -/
theorem handleIPC_calm_iff (env : Env) (stream : Bytes) :
    handleIPC env stream ≠ .error (.panic .indexOutOfRange) ∧
      ((∀ why, handleIPC env stream ≠ .error (.panic why)) ↔ LengthsFit env stream) := by
  unfold handleIPC LengthsFit
  cases readString stream with
  | none => exact ⟨nofun, fun _ => trivial, fun _ _ => nofun⟩
  | some read =>
      obtain ⟨line, reader⟩ := read
      dsimp only
      generalize split : splitOn blank (trimRight [carriageReturn, newline] line) = parts
      have one : 1 ≤ parts.length := by
        rw [← split]
        exact List.length_pos_iff.mpr (splitOn_ne_nil _ _)
      rw [if_neg (by omega), part_bind (by omega)]
      by_cases empty : parts.getD 0 [] = []
      · rw [if_pos empty]
        refine ⟨nofun, fun _ => ?_, fun _ _ => nofun⟩
        split
        · trivial
        · exact Or.inl empty
      · rw [if_neg empty]
        cases commandOf (env.toUpper (parts.getD 0 [])) with
        | none => exact ⟨nofun, fun _ => trivial, fun _ _ => nofun⟩
        | some command =>
            dsimp only
            have index : Avoids (· = .indexOutOfRange) (handle env parts reader command) :=
              avoids_handle one fun _ => nofun
            have calm := @calm_handle_iff env parts reader command one
            refine ⟨index _ rfl, fun none => Or.inr (calm.mp fun why _ => none why), ?_⟩
            rintro (wrong | fits)
            · exact absurd wrong empty
            · exact fun why => calm.mpr fits why trivial

def plainEnv : Env where
  toUpper text := text.map fun byte => if 97 ≤ byte ∧ byte ≤ 122 then byte - 32 else byte
  toLower text := text.map fun byte => if 65 ≤ byte ∧ byte ≤ 90 then byte + 32 else byte
  big5Decode := id
  formatTime _ := utf8 "20260101-000000"
  now := 1767225600
  maxAlloc := 1000000
  importWorkers := 4

/-- A comment of minus one byte. -/
theorem handleIPC_negative :
    handleIPC plainEnv (utf8 "COMMENT SYSOP M.1.A user 1 - 0 -1\n") =
      .error (.panic .makesliceLenOutOfRange) := by
  decide

end Pttbbs.PostSvc.Ipc
