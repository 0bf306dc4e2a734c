/-
List files of friend.svc: overrides, reject and visable.

A line names one user; what follows the name is a comment in Big5.  Reading a
file may fail, and a failed read tells nothing about the list.
-/

import Pttbbs.Lib.Text

namespace Pttbbs.FriendSvc

open Pttbbs.Lib

/-- `strings.ToLower` and `strings.EqualFold`. -/
structure Folding where
  toLower : Bytes → Bytes
  equalFold : Bytes → Bytes → Bool

def asciiLower (text : Bytes) : Bytes :=
  text.map fun byte => if 65 ≤ byte && byte ≤ 90 then byte + 32 else byte

def Folding.ascii : Folding where
  toLower := asciiLower
  equalFold left right := asciiLower left = asciiLower right

def isAlnum (byte : UInt8) : Bool :=
  (97 ≤ byte && byte ≤ 122) || (65 ≤ byte && byte ≤ 90) || (48 ≤ byte && byte ≤ 57)

def isBlank (byte : UInt8) : Bool := byte = 32 || byte = 9 || byte = 13 || byte = 10

def extractASCIIUserID (line : Bytes) : Bytes :=
  let token := (line.dropWhile isBlank).takeWhile fun byte => !(isBlank byte || 0x80 ≤ byte)
  if token.length > 12 then []
  else if token.all isAlnum then token
  else []

theorem all_isAlnum_extractASCIIUserID (line : Bytes) :
    (extractASCIIUserID line).all isAlnum = true := by
  unfold extractASCIIUserID
  dsimp only
  split
  · rfl
  · split
    · assumption
    · rfl

inductive Content where
  | bytes (content : Bytes)
  | missing
  | failed

def maxScanTokenSize : Nat := 64 * 1024

section

variable (folding : Folding)

def addTarget (targets : List Bytes) (line : Bytes) : List Bytes :=
  let targetID := extractASCIIUserID line
  if targetID = [] then targets
  else if targets.any fun seen => folding.toLower seen = folding.toLower targetID then targets
  else targets ++ [targetID]

def scanTargets (content : Bytes) : Option (List Bytes) :=
  let lines := splitOn newline content
  if lines.all fun line => line.length < maxScanTokenSize then
    some (lines.foldl (addTarget folding) [])
  else none

theorem foldl_addTarget_alnum (lines : List Bytes) (targets : List Bytes)
    (plain : ∀ id ∈ targets, id.all isAlnum = true) :
    ∀ id ∈ lines.foldl (addTarget folding) targets, id.all isAlnum = true := by
  induction lines generalizing targets with
  | nil => exact plain
  | cons line rest ih =>
      apply ih
      intro id member
      unfold addTarget at member
      dsimp only at member
      split at member
      · exact plain id member
      · split at member
        · exact plain id member
        · rw [List.mem_append, List.mem_singleton] at member
          obtain member | rfl := member
          · exact plain id member
          · exact all_isAlnum_extractASCIIUserID line

theorem scanTargets_alnum {content : Bytes} {targets : List Bytes}
    (scanned : scanTargets folding content = some targets) :
    ∀ id ∈ targets, id.all isAlnum = true := by
  unfold scanTargets at scanned
  dsimp only at scanned
  split at scanned
  · cases scanned
    exact foldl_addTarget_alnum folding _ _ nofun
  · cases scanned

/-- `LoadUserIDListFile`; `none` is an error. -/
def loadUserIDListFile : Content → Option (List Bytes)
  | .missing => some []
  | .failed => none
  | .bytes content => scanTargets folding content

end

end Pttbbs.FriendSvc
