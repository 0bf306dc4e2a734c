/-
Binary search for the first place where a predicate begins to hold.

The places from `low` up to `stop` are still open; `best` is the last place where the
predicate was seen to hold.
-/

import Mathlib.Data.Nat.Basic

namespace Pttbbs.Lib

/-- The loop; every turn leaves fewer places open, so their number is enough fuel. -/
def bisect (above : Nat → Bool) : Nat → Nat → Nat → Nat → Nat
  | 0, _, _, best => best
  | fuel + 1, low, stop, best =>
      if low < stop then
        let mid := low + (stop - 1 - low) / 2
        if above mid then bisect above fuel low mid mid
        else bisect above fuel (mid + 1) stop best
      else best

/-- Below the open places the predicate does not hold, above them it does, and the best place
is the first of those or the last of all. -/
structure Open (above : Nat → Bool) (count low stop best : Nat) : Prop where
  bound : stop ≤ count
  below : ∀ place, place < low → above place = false
  seen : above best = true ∧ best < count
  least : best = stop ∨ stop = count

theorem Open.first {above : Nat → Bool} {count low stop best : Nat}
    (opened : Open above count low stop best) (closed : ¬ low < stop) :
    ∀ place, place < best → above place = false := by
  intro place before
  have inside := opened.seen.2
  rcases opened.least with rfl | rfl
  · exact opened.below place (by omega)
  · exact opened.below place (by omega)

theorem bisect_first {above : Nat → Bool} {count fuel low stop best : Nat}
    (monotone : ∀ first second, first ≤ second → second < count → above first = true →
      above second = true)
    (opened : Open above count low stop best) (enough : stop - low ≤ fuel) :
    above (bisect above fuel low stop best) = true ∧ bisect above fuel low stop best < count ∧
      ∀ place, place < bisect above fuel low stop best → above place = false := by
  induction fuel generalizing low stop best with
  | zero => exact ⟨opened.seen.1, opened.seen.2, opened.first (by omega)⟩
  | succ fuel ih =>
      rw [bisect]
      split
      · rename_i more
        dsimp only
        generalize place : low + (stop - 1 - low) / 2 = mid
        have inside : low ≤ mid ∧ mid < stop := by omega
        have bound := opened.bound
        split
        · rename_i here
          have next : Open above count low mid mid :=
            ⟨by omega, opened.below, ⟨here, by omega⟩, Or.inl rfl⟩
          exact ih next (by omega)
        · rename_i notHere
          have below : ∀ place, place < mid + 1 → above place = false := by
            intro place before
            by_contra holds
            exact notHere (monotone place mid (by omega) (by omega) (by simpa using holds))
          have next : Open above count (mid + 1) stop best :=
            ⟨bound, below, opened.seen, opened.least⟩
          exact ih next (by omega)
      · rename_i closed
        exact ⟨opened.seen.1, opened.seen.2, opened.first closed⟩

end Pttbbs.Lib
