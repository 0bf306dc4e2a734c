/-
The keys of the four Pebble databases.

Every family of keys starts with a letter and, except for the author index,
with the id of its post.  The decoders check length and letters only.  Range
scans run from a prefix to the prefix followed by 0xff.
-/

import Pttbbs.Lib.ByteStore
import Pttbbs.PostSvc.Model

namespace Pttbbs.PostSvc

open Pttbbs.Lib

def letterP : UInt8 := 112

def letterC : UInt8 := 99

def letterU : UInt8 := 117

def letterV : UInt8 := 118

def letterX : UInt8 := 120

/-! ### Posts and crossposts -/

def encodePostKey (postID : UInt64) : Bytes := letterP :: putUint64 postID

def decodePostKey (key : Bytes) : Option UInt64 :=
  if key.length = 9 ∧ key.head? = some letterP then some (uint64 (key.drop 1)) else none

def encodeCrosspostPrefix (sourcePostID : UInt64) : Bytes := letterX :: putUint64 sourcePostID

def encodeCrosspostKey (sourcePostID : UInt64) (sequence : UInt32) : Bytes :=
  letterX :: (putUint64 sourcePostID ++ putUint32 sequence)

/-! ### Comments and the author index -/

def encodeCommentPrefix (postID : UInt64) : Bytes := letterC :: putUint64 postID

def encodeCommentKey (postID : UInt64) (sequence : UInt32) : Bytes :=
  letterC :: (putUint64 postID ++ putUint32 sequence)

def decodeCommentKey (key : Bytes) : Option (UInt64 × UInt32) :=
  if key.length = 13 ∧ key.head? = some letterC then
    some (uint64 ((key.drop 1).take 8), uint32 (key.drop 9))
  else none

def padAuthor (author : Bytes) : Bytes :=
  author.take 16 ++ List.replicate (16 - author.length) 0

def encodeAuthorCommentPrefix (author : Bytes) : Bytes := letterU :: padAuthor author

def encodeAuthorCommentKey (author : Bytes) (createdAt : Int64) (postID : UInt64)
    (sequence : UInt32) : Bytes :=
  letterU :: (padAuthor author ++ putUint64 createdAt.toUInt64 ++ putUint64 postID ++
    putUint32 sequence)

def decodeAuthorCommentKey (key : Bytes) : Option (Bytes × Int64 × UInt64 × UInt32) :=
  if key.length = 37 ∧ key.head? = some letterU then
    some (trimRight [0] ((key.drop 1).take 16), (uint64 ((key.drop 17).take 8)).toInt64,
      uint64 ((key.drop 25).take 8), uint32 (key.drop 33))
  else none

/-! ### Votes -/

def encodeVotePrefix (postID : UInt64) : Bytes := letterV :: putUint64 postID

def encodeVoteKey (postID : UInt64) (user : Bytes) : Bytes :=
  letterV :: (putUint64 postID ++ user)

def decodeVoteKey (key : Bytes) : Option (UInt64 × Bytes) :=
  if 10 ≤ key.length ∧ key.head? = some letterV then
    some (uint64 ((key.drop 1).take 8), key.drop 9)
  else none

/-- `'U'` or `'D'`, the voter, the time and the address. -/
def encodeVoteValue (vote : VoteType) (personID : PersonID) (createdAt : Int64) (ip : Bytes) :
    Bytes :=
  (if vote = voteUp then 85 else if vote = voteDown then 68 else 48) ::
    (putUint64 personID ++ putUint64 createdAt.toUInt64 ++ ip)

def voteOfByte (byte : UInt8) : VoteType :=
  if byte = 85 then voteUp else if byte = 68 then voteDown else voteNeutral

def voteOfValue (value : Bytes) : VoteType :=
  match value with
  | [] => voteNeutral
  | byte :: _ => voteOfByte byte

def decodeVoteValue (value : Bytes) : Option (VoteType × PersonID × Int64 × Bytes) :=
  if value = [] then none
  else
    some (voteOfValue value,
      if 9 ≤ value.length then uint64 ((value.drop 1).take 8) else 0,
      if 17 ≤ value.length then (uint64 ((value.drop 9).take 8)).toInt64 else 0,
      value.drop 17)

/-! ### History -/

def encodePostHistoryPrefix (postID : UInt64) : Bytes :=
  letterP :: (putUint64 postID ++ [letterV])

def encodePostHistoryKey (postID : UInt64) (revision : UInt32) : Bytes :=
  letterP :: (putUint64 postID ++ letterV :: putUint32 revision)

def decodePostHistoryKey (key : Bytes) : Option (UInt64 × UInt32) :=
  if key.length = 14 ∧ key.head? = some letterP ∧ key[9]? = some letterV then
    some (uint64 ((key.drop 1).take 8), uint32 (key.drop 10))
  else none

def encodeCommentHistoryPrefix (postID : UInt64) (sequence : UInt32) : Bytes :=
  letterC :: (putUint64 postID ++ putUint32 sequence ++ [letterV])

def encodeCommentHistoryKey (postID : UInt64) (sequence revision : UInt32) : Bytes :=
  letterC :: (putUint64 postID ++ putUint32 sequence ++ letterV :: putUint32 revision)

def decodeCommentHistoryKey (key : Bytes) : Option (UInt64 × UInt32 × UInt32) :=
  if key.length = 18 ∧ key.head? = some letterC ∧ key[13]? = some letterV then
    some (uint64 ((key.drop 1).take 8), uint32 ((key.drop 9).take 4), uint32 (key.drop 14))
  else none

/-! ### Decoding what was encoded -/

@[simp] theorem decodePostKey_encodePostKey (postID : UInt64) :
    decodePostKey (encodePostKey postID) = some postID := by
  simp [decodePostKey, encodePostKey]

@[simp] theorem decodeCommentKey_encodeCommentKey (postID : UInt64) (sequence : UInt32) :
    decodeCommentKey (encodeCommentKey postID sequence) = some (postID, sequence) := by
  simp [decodeCommentKey, encodeCommentKey]

@[simp] theorem decodePostHistoryKey_encodePostHistoryKey (postID : UInt64)
    (revision : UInt32) :
    decodePostHistoryKey (encodePostHistoryKey postID revision) = some (postID, revision) := by
  have past : (putUint64 postID).drop 9 = [] := List.drop_of_length_le (by simp)
  simp [decodePostHistoryKey, encodePostHistoryKey, List.drop_append, past]

@[simp] theorem decodeCommentHistoryKey_encodeCommentHistoryKey (postID : UInt64)
    (sequence revision : UInt32) :
    decodeCommentHistoryKey (encodeCommentHistoryKey postID sequence revision) =
      some (postID, sequence, revision) := by
  have pastID : (putUint64 postID).drop 13 = [] := List.drop_of_length_le (by simp)
  have pastSequence : (putUint32 sequence).drop 5 = [] := List.drop_of_length_le (by simp)
  simp [decodeCommentHistoryKey, encodeCommentHistoryKey, List.drop_append, pastID, pastSequence]

/-! ### Numbered families -/

theorem encodeCommentKey_eq (postID : UInt64) (sequence : UInt32) :
    encodeCommentKey postID sequence = numberedKey (encodeCommentPrefix postID) sequence := rfl

theorem encodePostHistoryKey_eq (postID : UInt64) (revision : UInt32) :
    encodePostHistoryKey postID revision =
      numberedKey (encodePostHistoryPrefix postID) revision := by
  simp [encodePostHistoryKey, numberedKey, encodePostHistoryPrefix]

theorem encodeCommentHistoryKey_eq (postID : UInt64) (sequence revision : UInt32) :
    encodeCommentHistoryKey postID sequence revision =
      numberedKey (encodeCommentHistoryPrefix postID sequence) revision := by
  simp [encodeCommentHistoryKey, numberedKey, encodeCommentHistoryPrefix]

/-! ### Keys are told apart -/

@[simp] theorem encodePostKey_inj {left right : UInt64} :
    encodePostKey left = encodePostKey right ↔ left = right := by
  simp [encodePostKey]

@[simp] theorem encodeCommentKey_inj {leftID rightID : UInt64} {leftSeq rightSeq : UInt32} :
    encodeCommentKey leftID leftSeq = encodeCommentKey rightID rightSeq ↔
      leftID = rightID ∧ leftSeq = rightSeq := by
  constructor
  · intro same
    have decoded := congrArg decodeCommentKey same
    simpa using decoded
  · rintro ⟨rfl, rfl⟩
    rfl

@[simp] theorem encodeCrosspostKey_inj {leftID rightID : UInt64} {leftSeq rightSeq : UInt32} :
    encodeCrosspostKey leftID leftSeq = encodeCrosspostKey rightID rightSeq ↔
      leftID = rightID ∧ leftSeq = rightSeq := by
  constructor
  · intro same
    have tails := (List.cons.inj same).2
    have parts := List.append_inj tails (by simp)
    exact ⟨putUint64_inj.mp parts.1, putUint32_inj.mp parts.2⟩
  · rintro ⟨rfl, rfl⟩
    rfl

@[simp] theorem encodeVoteKey_inj {leftID rightID : UInt64} {leftUser rightUser : Bytes} :
    encodeVoteKey leftID leftUser = encodeVoteKey rightID rightUser ↔
      leftID = rightID ∧ leftUser = rightUser := by
  constructor
  · intro same
    have tails := (List.cons.inj same).2
    have parts := List.append_inj tails (by simp)
    exact ⟨putUint64_inj.mp parts.1, parts.2⟩
  · rintro ⟨rfl, rfl⟩
    rfl

@[simp] theorem encodeCommentHistoryKey_inj {leftID rightID : UInt64}
    {leftSeq rightSeq leftRev rightRev : UInt32} :
    encodeCommentHistoryKey leftID leftSeq leftRev =
        encodeCommentHistoryKey rightID rightSeq rightRev ↔
      leftID = rightID ∧ leftSeq = rightSeq ∧ leftRev = rightRev := by
  constructor
  · intro same
    have decoded := congrArg decodeCommentHistoryKey same
    simpa using decoded
  · rintro ⟨rfl, rfl, rfl⟩
    rfl

theorem encodeAuthorCommentKey_ne_encodeCommentKey (author : Bytes) (createdAt : Int64)
    (postID otherID : UInt64) (sequence floor : UInt32) :
    encodeAuthorCommentKey author createdAt postID sequence ≠ encodeCommentKey otherID floor := by
  unfold encodeAuthorCommentKey encodeCommentKey
  intro same
  exact absurd (List.cons.inj same).1 (by decide)

/-! ### The post of a key -/

/-- The key is about a post: the id follows the letter, or in the author index
the time. -/
def KeyOf (id : UInt64) (key : Bytes) : Prop :=
  (∃ letter, letter ≠ letterU ∧ letter :: putUint64 id <+: key) ∨
    ∃ author createdAt sequence, key = encodeAuthorCommentKey author createdAt id sequence

theorem keyOf_iff_of_id {id other : UInt64} {letter : UInt8} {rest : Bytes}
    (plain : letter ≠ letterU) : KeyOf id (letter :: (putUint64 other ++ rest)) ↔ id = other := by
  constructor
  · rintro (⟨initial, _plain, more, same⟩ | ⟨author, createdAt, sequence, same⟩)
    · have parts := (List.append_inj (List.cons.inj same).2 (by simp)).1
      exact putUint64_inj.mp parts
    · exact absurd (List.cons.inj same).1 plain
  · rintro rfl
    exact Or.inl ⟨letter, plain, ⟨rest, rfl⟩⟩

@[simp] theorem keyOf_postKey {id other : UInt64} : KeyOf id (encodePostKey other) ↔ id = other := by
  have same : encodePostKey other = letterP :: (putUint64 other ++ []) := by
    rw [List.append_nil]
    rfl
  rw [same, keyOf_iff_of_id (by decide)]

@[simp] theorem keyOf_crosspostKey {id other : UInt64} {sequence : UInt32} :
    KeyOf id (encodeCrosspostKey other sequence) ↔ id = other :=
  keyOf_iff_of_id (by decide)

@[simp] theorem keyOf_commentKey {id other : UInt64} {sequence : UInt32} :
    KeyOf id (encodeCommentKey other sequence) ↔ id = other :=
  keyOf_iff_of_id (by decide)

@[simp] theorem keyOf_voteKey {id other : UInt64} {user : Bytes} :
    KeyOf id (encodeVoteKey other user) ↔ id = other :=
  keyOf_iff_of_id (by decide)

@[simp] theorem keyOf_postHistoryKey {id other : UInt64} {revision : UInt32} :
    KeyOf id (encodePostHistoryKey other revision) ↔ id = other :=
  keyOf_iff_of_id (by decide)

@[simp] theorem keyOf_commentHistoryKey {id other : UInt64} {sequence revision : UInt32} :
    KeyOf id (encodeCommentHistoryKey other sequence revision) ↔ id = other := by
  unfold encodeCommentHistoryKey
  rw [List.append_assoc]
  exact keyOf_iff_of_id (by decide)

@[simp] theorem padAuthor_length (author : Bytes) : (padAuthor author).length = 16 := by
  unfold padAuthor
  rw [List.length_append, List.length_take, List.length_replicate]
  omega

theorem encodeAuthorCommentKey_floor {left right : Bytes} {leftTime rightTime : Int64}
    {leftID rightID : UInt64} {leftSeq rightSeq : UInt32}
    (same : encodeAuthorCommentKey left leftTime leftID leftSeq =
      encodeAuthorCommentKey right rightTime rightID rightSeq) :
    leftID = rightID ∧ leftSeq = rightSeq := by
  unfold encodeAuthorCommentKey at same
  have floors := List.append_inj (List.cons.inj same).2 (by simp)
  have ids := List.append_inj floors.1 (by simp)
  exact ⟨putUint64_inj.mp ids.2, putUint32_inj.mp floors.2⟩

@[simp] theorem keyOf_authorKey {id other : UInt64} {author : Bytes} {createdAt : Int64}
    {sequence : UInt32} :
    KeyOf id (encodeAuthorCommentKey author createdAt other sequence) ↔ id = other := by
  constructor
  · rintro (⟨letter, plain, more, same⟩ | ⟨name, time, floor, same⟩)
    · exact absurd (List.cons.inj same).1 plain
    · exact (encodeAuthorCommentKey_floor same).1.symm
  · rintro rfl
    exact Or.inr ⟨author, createdAt, sequence, rfl⟩

end Pttbbs.PostSvc
