/-
Reading a file line by line, as `fgets` does.

A call reads up to a line feed, or until its buffer is full.  Lines that fit the buffer are read
one by one.
-/

import Pttbbs.Lib.CStr
import Pttbbs.Lib.Text

namespace Pttbbs.Lib

/-- What `fgets` reads into a buffer of some size, call by call. -/
def fgetsPieces (size : Nat) (line : Bytes) : Bytes → List Bytes
  | [] => if line = [] then [] else [line]
  | byte :: rest =>
      if byte = newline ∨ line.length + 1 = size - 1 then
        (line ++ [byte]) :: fgetsPieces size [] rest
      else fgetsPieces size (line ++ [byte]) rest

def fileLines (line : Bytes) : Bytes → List Bytes
  | [] => if line = [] then [] else [line]
  | byte :: rest =>
      if byte = newline then (line ++ [byte]) :: fileLines [] rest
      else fileLines (line ++ [byte]) rest

def stringOf (buffer : Bytes) : CStr :=
  ⟨buffer.takeWhile (· ≠ 0), fun member => by simpa using List.mem_takeWhile_imp member⟩

theorem fileLines_extends (line rest : Bytes) (some : line ≠ []) :
    ∃ more others, fileLines line rest = (line ++ more) :: others := by
  induction rest generalizing line with
  | nil => exact ⟨[], [], by rw [fileLines, if_neg some, List.append_nil]⟩
  | cons byte rest ih =>
      rw [fileLines]
      split
      · exact ⟨[byte], fileLines [] rest, rfl⟩
      · obtain ⟨more, others, same⟩ := ih (line ++ [byte]) (by simp)
        exact ⟨byte :: more, others, by rw [same, List.append_assoc, List.singleton_append]⟩

theorem fgetsPieces_eq {size : Nat} {line rest : Bytes} (unfinished : newline ∉ line)
    (short : ∀ whole ∈ fileLines line rest,
      (whole.filter (· ≠ newline)).length < size - 1) :
    fgetsPieces size line rest = fileLines line rest := by
  induction rest generalizing line with
  | nil => rfl
  | cons byte rest ih =>
      rw [fileLines] at short ⊢
      rw [fgetsPieces]
      by_cases ends : byte = newline
      · rw [if_pos ends] at short
        rw [if_pos (.inl ends), if_pos ends,
          ih List.not_mem_nil fun whole member => short whole (List.mem_cons_of_mem _ member)]
      · rw [if_neg ends] at short
        have still : newline ∉ line ++ [byte] := by
          intro member
          rcases List.mem_append.mp member with before | last
          · exact unfinished before
          · exact ends (List.mem_singleton.mp last).symm
        obtain ⟨more, others, same⟩ :=
          fileLines_extends (line ++ [byte]) rest (by simp)
        have bound := short _ (same ▸ List.mem_cons_self)
        have kept : (line ++ [byte]).filter (· ≠ newline) = line ++ [byte] :=
          List.filter_eq_self.mpr fun other member =>
            decide_eq_true fun equal => still (equal ▸ member)
        rw [List.filter_append, kept, List.length_append, List.length_append,
          List.length_singleton] at bound
        rw [if_neg (not_or.mpr ⟨ends, by omega⟩), if_neg ends, ih still short]

theorem fileLines_flatten (line rest : Bytes) : (fileLines line rest).flatten = line ++ rest := by
  induction rest generalizing line with
  | nil =>
      rw [fileLines]
      split
      · rename_i empty
        rw [empty]
        rfl
      · rw [List.flatten_cons, List.flatten_nil]
  | cons byte rest ih =>
      rw [fileLines]
      split
      · rw [List.flatten_cons, ih, List.append_assoc]
        rfl
      · rw [ih, List.append_assoc]
        rfl

theorem fileLines_some {line rest whole : Bytes} (member : whole ∈ fileLines line rest) :
    whole ≠ [] := by
  induction rest generalizing line with
  | nil =>
      rw [fileLines] at member
      split at member
      · cases member
      · rw [List.mem_singleton.mp member]
        assumption
  | cons byte rest ih =>
      rw [fileLines] at member
      split at member
      · rcases List.mem_cons.mp member with rfl | later
        · simp
        · exact ih later
      · exact ih member

end Pttbbs.Lib
