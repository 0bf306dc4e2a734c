/-
Search in records that are nearly in order.

A binary search comes close to the record it looks for, and a window around the place where
it ended is searched from its end down.  A record that stands on the wrong side misleads the
search; what matters is how far from the right place it can end.
-/

import Mathlib.Data.Nat.Basic
import Mathlib.Tactic.ByContra

namespace Pttbbs.Lib

inductive Turn where
  | found
  | halt
  | later
  | earlier
deriving DecidableEq, Repr

inductive Ending where
  | found (place : Nat)
  | near (place : Nat)
deriving DecidableEq, Repr

def middle (low stop : Nat) : Nat := low + (stop - 1 - low) / 2

/-- The loop.  The places from `low` up to `stop` are open; `probe` chooses the next of them
to look at, and the search ends in their middle if there is none. -/
def approach (probe : Nat → Nat → Option Nat) (turn : Nat → Turn) :
    Nat → Nat → Nat → Nat → Ending
  | 0, _, _, mid => .near mid
  | fuel + 1, low, stop, mid =>
      if low < stop then
        match probe low stop with
        | none => .near (middle low stop)
        | some mid =>
            match turn mid with
            | .found => .found mid
            | .halt => .near mid
            | .later => approach probe turn fuel (mid + 1) stop mid
            | .earlier => approach probe turn fuel low mid mid
      else .near mid

section Approach

variable (real : Nat → Prop) (probe : Nat → Nat → Option Nat) (turn : Nat → Turn) (place : Nat)

/-- The places where a search for `place` can end: at a record that says it is near, or next
to one that misled it.  The search looks at real records only. -/
inductive DeadEnd : Nat → Prop where
  | halt {mid : Nat} (present : real mid) (halted : turn mid = .halt) : DeadEnd mid
  | late {other mid : Nat} (wrong : place < other) (present : real other)
      (misled : turn other = .later)
      (next : mid = other ∨ mid = other + 1 ∨
        ∃ stop, other + 1 < stop ∧ probe (other + 1) stop = none ∧
          mid = middle (other + 1) stop) : DeadEnd mid
  | early {other mid : Nat} (wrong : other < place) (present : real other)
      (misled : turn other = .earlier)
      (next : mid = other ∨ mid + 1 = other ∨
        ∃ low, low < other ∧ probe low other = none ∧ mid = middle low other) : DeadEnd mid

/-- The place is still open, or a record has misled the search. -/
structure Astray (low stop : Nat) : Prop where
  order : low ≤ stop
  left : low ≤ place ∨ ∃ other, place < other ∧ real other ∧ turn other = .later ∧
    low = other + 1
  right : place < stop ∨ ∃ other, other < place ∧ real other ∧ turn other = .earlier ∧
    stop = other

variable {real probe turn place}

theorem Astray.closed {low stop mid : Nat} (astray : Astray real turn place low stop)
    (empty : ¬ low < stop) (last : mid + 1 = low ∨ mid = stop) :
    DeadEnd real probe turn place mid := by
  have order := astray.order
  rcases astray.left with before | ⟨other, wrong, present, misled, rfl⟩
  · rcases astray.right with after | ⟨other, wrong, present, misled, rfl⟩
    · omega
    · refine .early wrong present misled ?_
      omega
  · refine .late wrong present misled ?_
    omega

theorem Astray.silent {low stop : Nat} (astray : Astray real turn place low stop)
    (more : low < stop) (silent : probe low stop = none)
    (outside : ¬ (low ≤ place ∧ place < stop)) :
    DeadEnd real probe turn place (middle low stop) := by
  rcases astray.left with before | ⟨other, wrong, present, misled, rfl⟩
  · rcases astray.right with after | ⟨other, wrong, present, misled, rfl⟩
    · exact absurd ⟨before, after⟩ outside
    · exact .early wrong present misled (Or.inr (Or.inr ⟨low, more, silent, rfl⟩))
  · exact .late wrong present misled (Or.inr (Or.inr ⟨stop, more, silent, rfl⟩))

theorem Astray.later {low stop mid : Nat} (astray : Astray real turn place low stop)
    (inside : low ≤ mid ∧ mid < stop) (present : real mid) (misled : turn mid = .later)
    (self : turn place ≠ .later) : Astray real turn place (mid + 1) stop := by
  refine ⟨by omega, ?_, astray.right⟩
  by_cases before : mid + 1 ≤ place
  · exact Or.inl before
  · have different : mid ≠ place := fun same => self (same ▸ misled)
    exact Or.inr ⟨mid, by omega, present, misled, rfl⟩

theorem Astray.earlier {low stop mid : Nat} (astray : Astray real turn place low stop)
    (inside : low ≤ mid ∧ mid < stop) (present : real mid) (misled : turn mid = .earlier)
    (self : turn place ≠ .earlier) : Astray real turn place low mid := by
  refine ⟨inside.1, astray.left, ?_⟩
  by_cases after : place < mid
  · exact Or.inl after
  · have different : mid ≠ place := fun same => self (same ▸ misled)
    exact Or.inr ⟨mid, by omega, present, misled, rfl⟩

theorem approach_near {count fuel low stop mid result : Nat}
    (inside : ∀ low stop mid, low < stop → stop ≤ count → probe low stop = some mid →
      low ≤ mid ∧ mid < stop ∧ real mid)
    (silent : ∀ low stop, low < stop → probe low stop = none → ¬ (low ≤ place ∧ place < stop))
    (self : turn place ≠ .later ∧ turn place ≠ .earlier)
    (bound : stop ≤ count) (astray : Astray real turn place low stop) (enough : stop - low ≤ fuel)
    (last : low < stop ∨ mid + 1 = low ∨ mid = stop)
    (near : approach probe turn fuel low stop mid = .near result) :
    DeadEnd real probe turn place result := by
  induction fuel generalizing low stop mid with
  | zero =>
      cases near
      exact astray.closed (by omega) (last.resolve_left (by omega))
  | succ fuel ih =>
      rw [approach] at near
      split at near
      · rename_i more
        split at near
        · rename_i probed
          cases near
          exact astray.silent more probed (silent low stop more probed)
        · rename_i mid probed
          obtain ⟨above, below, present⟩ := inside low stop mid more bound probed
          split at near
          · cases near
          · rename_i turned
            cases near
            exact .halt present turned
          · rename_i turned
            exact ih bound (astray.later ⟨above, below⟩ present turned self.1) (by omega)
              (Or.inr (Or.inl rfl)) near
          · rename_i turned
            exact ih (by omega) (astray.earlier ⟨above, below⟩ present turned self.2) (by omega)
              (Or.inr (Or.inr rfl)) near
      · rename_i empty
        cases near
        exact astray.closed empty (last.resolve_left empty)

theorem approach_found {fuel low stop mid result : Nat}
    (found : approach probe turn fuel low stop mid = .found result) : turn result = .found := by
  induction fuel generalizing low stop mid with
  | zero => cases found
  | succ fuel ih =>
      rw [approach] at found
      split at found
      · split at found
        · cases found
        · split at found
          · rename_i turned
            cases found
            exact turned
          · cases found
          · exact ih found
          · exact ih found
      · cases found

end Approach

/-! ### Down from the end of a window -/

def scanDown (hit : Nat → Bool) (start : Nat) : Nat → Option Nat
  | 0 => none
  | place + 1 =>
      if place < start then none
      else if hit place then some place
      else scanDown hit start place

theorem scanDown_some {hit : Nat → Bool} {start stop place : Nat}
    (found : scanDown hit start stop = some place) :
    hit place = true ∧ start ≤ place ∧ place < stop := by
  induction stop with
  | zero => cases found
  | succ stop ih =>
      rw [scanDown] at found
      split at found
      · cases found
      · split at found
        · rename_i inside here
          cases found
          exact ⟨here, by omega, by omega⟩
        · obtain ⟨here, above, below⟩ := ih found
          exact ⟨here, above, by omega⟩

theorem scanDown_isSome {hit : Nat → Bool} {start stop place : Nat} (here : hit place = true)
    (above : start ≤ place) (below : place < stop) : ∃ other, scanDown hit start stop = some other
    := by
  induction stop with
  | zero => omega
  | succ stop ih =>
      rw [scanDown, if_neg (by omega)]
      split
      · exact ⟨stop, rfl⟩
      · rename_i notHere
        have different : place ≠ stop := by
          rintro rfl
          exact notHere here
        exact ih (by omega)

end Pttbbs.Lib
