/-
Singly linked chains of nodes kept in a table of successors.

A chain is described by the list of its nodes, so that it is finite whenever it is
described at all.  Nodes are found by walking a bounded number of steps, put in front
of a chain, and taken out by redirecting their predecessor.
-/

import Mathlib.Data.List.Nodup
import Mathlib.Logic.Function.Basic

namespace Pttbbs.Lib

variable {Node : Type} [DecidableEq Node] {next : Node → Option Node} {start : Option Node}
  {nodes : List Node}

inductive Linked (next : Node → Option Node) : Option Node → List Node → Prop
  | done : Linked next none []
  | link {node : Node} {rest : List Node} (tail : Linked next (next node) rest) :
      Linked next (some node) (node :: rest)

omit [DecidableEq Node] in
theorem Linked.congr {other : Node → Option Node} (linked : Linked next start nodes)
    (same : ∀ node ∈ nodes, other node = next node) : Linked other start nodes := by
  induction linked with
  | done => exact Linked.done
  | link tail ih =>
      apply Linked.link
      rw [same _ List.mem_cons_self]
      exact ih fun node member => same node (List.mem_cons_of_mem _ member)

omit [DecidableEq Node] in
theorem Linked.unique {others : List Node} (linked : Linked next start nodes)
    (again : Linked next start others) : nodes = others := by
  induction linked generalizing others with
  | done =>
      cases again
      rfl
  | link tail ih =>
      cases again with
      | link rest => rw [ih rest]

theorem Linked.update {node : Node} (linked : Linked next start nodes) (outside : node ∉ nodes)
    (successor : Option Node) : Linked (Function.update next node successor) start nodes := by
  apply linked.congr
  intro other member
  apply Function.update_of_ne
  intro same
  exact outside (same ▸ member)

theorem Linked.push {node : Node} (linked : Linked next start nodes) (outside : node ∉ nodes) :
    Linked (Function.update next node start) (some node) (node :: nodes) := by
  apply Linked.link
  rw [Function.update_self]
  exact linked.update outside start

theorem Linked.unlink {front back : List Node} {previous node : Node}
    (linked : Linked next start (front ++ previous :: node :: back))
    (single : (front ++ previous :: node :: back).Nodup) :
    Linked (Function.update next previous (next node)) start (front ++ previous :: back) := by
  induction front generalizing start with
  | nil =>
      cases linked with
      | link tail =>
          generalize here : next previous = successor at tail
          cases tail with
          | link rest =>
              apply Linked.link
              rw [Function.update_self]
              apply rest.update
              intro member
              exact (List.nodup_cons.mp single).1 (List.mem_cons_of_mem _ member)
  | cons first others ih =>
      cases linked with
      | link tail =>
          obtain ⟨outside, distinct⟩ := List.nodup_cons.mp single
          have different : first ≠ previous := by
            intro same
            apply outside
            rw [same]
            exact List.mem_append_right _ List.mem_cons_self
          apply Linked.link
          rw [Function.update_of_ne different]
          exact ih tail distinct

/-! ### Walking a chain -/

def seek (next : Node → Option Node) (wanted : Node → Bool) : Nat → Option Node → Option Node
  | 0, _ => none
  | _ + 1, none => none
  | steps + 1, some node =>
      if wanted node then some node else seek next wanted steps (next node)

omit [DecidableEq Node] in
theorem Linked.seek_eq (linked : Linked next start nodes) (wanted : Node → Bool) {steps : Nat}
    (enough : nodes.length ≤ steps) : seek next wanted steps start = nodes.find? wanted := by
  induction linked generalizing steps with
  | done => cases steps <;> rfl
  | link tail ih =>
      cases steps with
      | zero => cases enough
      | succ steps =>
          rw [seek, List.find?_cons]
          split
          · rename_i found
            rw [found]
          · rename_i other
            rw [Bool.not_eq_true] at other
            rw [other]
            exact ih (Nat.le_of_succ_le_succ enough)

theorem Linked.find_predecessor {first node : Node} {rest : List Node}
    (linked : Linked next (some first) (first :: rest)) (single : (first :: rest).Nodup)
    (member : node ∈ rest) :
    ∃ (front : List Node) (previous : Node) (back : List Node),
      first :: rest = front ++ previous :: node :: back ∧
      (first :: rest).find? (fun other => next other = some node) = some previous := by
  induction rest generalizing first with
  | nil => cases member
  | cons second others ih =>
      cases linked with
      | link tail =>
          generalize here : next first = successor at tail
          cases tail with
          | link deeper =>
              have single' := (List.nodup_cons.mp single).2
              rcases List.mem_cons.mp member with atSecond | later
              · refine ⟨[], first, others, ?_, ?_⟩
                · rw [atSecond]
                  rfl
                · rw [List.find?_cons_of_pos (by simp [here, atSecond])]
              · have different : second ≠ node := by
                  intro same
                  exact (List.nodup_cons.mp single').1 (same ▸ later)
                obtain ⟨front, previous, back, whole, found⟩ :=
                  ih (Linked.link deeper) single' later
                refine ⟨first :: front, previous, back, ?_, ?_⟩
                · rw [whole, List.cons_append]
                · rw [List.find?_cons_of_neg (by simp [here, different]), found]

end Pttbbs.Lib
