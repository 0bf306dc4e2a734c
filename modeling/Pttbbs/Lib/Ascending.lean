/-
Lists of numbers in strictly ascending order, patched in place.

The place of a number is found by binary search, as `sort.Search` does it.  Such a list is
known by its members.
-/

import Mathlib.Data.List.GetD
import Mathlib.Data.List.Nodup
import Mathlib.Data.List.TakeWhile
import Mathlib.Order.Basic

namespace Pttbbs.Lib

/-! ### Searching -/

def sortSearchFrom (test : Nat → Bool) : Nat → Nat → Nat → Nat
  | 0, low, _ => low
  | fuel + 1, low, high =>
      if low < high then
        let mid := (low + high) / 2
        if test mid then sortSearchFrom test fuel low mid
        else sortSearchFrom test fuel (mid + 1) high
      else low

/-- `sort.Search`; every turn makes the interval shorter. -/
def sortSearch (count : Nat) (test : Nat → Bool) : Nat := sortSearchFrom test count 0 count

theorem sortSearchFrom_eq {test : Nat → Bool} {cut fuel low high : Nat}
    (enough : high - low ≤ fuel) (above : low ≤ cut) (below : cut ≤ high)
    (exact : ∀ index, index < high → (test index = true ↔ cut ≤ index)) :
    sortSearchFrom test fuel low high = cut := by
  induction fuel generalizing low high with
  | zero =>
      rw [sortSearchFrom]
      omega
  | succ fuel ih =>
      rw [sortSearchFrom]
      by_cases nonempty : low < high
      · rw [if_pos nonempty]
        have inside : (low + high) / 2 < high := by omega
        by_cases passed : test ((low + high) / 2) = true
        · rw [if_pos passed]
          have reached := (exact _ inside).mp passed
          apply ih (by omega) above reached
          intro index early
          exact exact index (by omega)
        · rw [if_neg passed]
          have short : ¬ cut ≤ (low + high) / 2 := fun reached =>
            passed ((exact _ inside).mpr reached)
          exact ih (by omega) (by omega) below exact
      · rw [if_neg nonempty]
        omega

theorem sortSearch_eq {count cut : Nat} {test : Nat → Bool} (below : cut ≤ count)
    (exact : ∀ index, index < count → (test index = true ↔ cut ≤ index)) :
    sortSearch count test = cut :=
  sortSearchFrom_eq (by omega) (Nat.zero_le _) below exact

/-! ### Ascending lists -/

def Ascending (list : List Nat) : Prop := list.Pairwise (· < ·)

namespace Ascending

variable {list : List Nat}

theorem nodup (ascending : Ascending list) : list.Nodup :=
  ascending.imp fun less => Nat.ne_of_lt less

theorem eq_of_mem_iff {other : List Nat} (left : Ascending list) (right : Ascending other)
    (same : ∀ value, value ∈ list ↔ value ∈ other) : list = other := by
  have shuffled : list.Perm other :=
    (List.perm_ext_iff_of_nodup left.nodup right.nodup).mpr same
  refine List.Perm.eq_of_pairwise ?_ left right shuffled
  intro first second _inLeft _inRight forward backward
  omega

theorem sortSearch_splits (ascending : Ascending list) (value : Nat) :
    ∃ front back, list = front ++ back ∧ (∀ member ∈ front, member < value) ∧
      (∀ member ∈ back, value ≤ member) ∧
      sortSearch list.length (fun index => value ≤ list.getD index 0) = front.length := by
  have parts : list = list.takeWhile (· < value) ++ list.dropWhile (· < value) :=
    (List.takeWhile_append_dropWhile).symm
  have smaller : ∀ member ∈ list.takeWhile (· < value), member < value := by
    intro member inFront
    have passed := List.mem_takeWhile_imp inFront
    exact of_decide_eq_true passed
  have larger : ∀ member ∈ list.dropWhile (· < value), value ≤ member := by
    have sorted : (list.dropWhile (· < value)).Pairwise (· < ·) :=
      List.Pairwise.sublist (List.dropWhile_sublist _) ascending
    have first : ∀ top, (list.dropWhile (· < value)).head? = some top → value ≤ top := by
      intro top isTop
      have failed := List.head?_dropWhile_not (fun member => decide (member < value)) list
      rw [isTop] at failed
      simpa using failed
    cases rest : list.dropWhile (· < value) with
    | nil => nofun
    | cons top others =>
        rw [rest] at sorted first
        have least := first top rfl
        intro member inBack
        rcases List.mem_cons.mp inBack with here | later
        · omega
        · have above := (List.pairwise_cons.mp sorted).1 member later
          omega
  refine ⟨_, _, parts, smaller, larger, ?_⟩
  generalize list.takeWhile (· < value) = front at parts smaller
  generalize list.dropWhile (· < value) = back at parts larger
  subst parts
  apply sortSearch_eq
  · rw [List.length_append]
    omega
  · intro index inside
    rw [decide_eq_true_eq, List.getD_eq_getElem _ _ inside]
    by_cases early : index < front.length
    · rw [List.getElem_append_left early]
      have less := smaller _ (List.getElem_mem early)
      omega
    · have later : index - front.length < back.length := by
        rw [List.length_append] at inside
        omega
      rw [List.getElem_append_right (by omega)]
      have more := larger _ (List.getElem_mem later)
      omega

theorem front_back {front back : List Nat} (ascending : Ascending (front ++ back)) :
    Ascending front ∧ Ascending back :=
  ⟨(List.pairwise_append.mp ascending).1, (List.pairwise_append.mp ascending).2.1⟩

theorem insert {front back : List Nat} {value : Nat} (ascending : Ascending (front ++ back))
    (smaller : ∀ member ∈ front, member < value) (larger : ∀ member ∈ back, value < member) :
    Ascending (front ++ value :: back) := by
  obtain ⟨inFront, inBack, across⟩ := List.pairwise_append.mp ascending
  refine List.pairwise_append.mpr ⟨inFront, List.pairwise_cons.mpr ⟨larger, inBack⟩, ?_⟩
  intro low member high other
  rcases List.mem_cons.mp other with here | later
  · rw [here]
    exact smaller low member
  · exact across low member high later

theorem remove {front back : List Nat} {value : Nat}
    (ascending : Ascending (front ++ value :: back)) : Ascending (front ++ back) :=
  List.Pairwise.sublist (List.Sublist.append_left (List.sublist_cons_self _ _) _) ascending

end Ascending

end Pttbbs.Lib
