/-
Several chains over one table of successors, whose nodes are marked before they leave.

A link carries a mark beside its target.  A marked link is never redirected, a marked
node may be taken out by whoever finds it, and a node that is in no chain may be put in
front of any chain.  Each change says what it leaves alone.
-/

import Pttbbs.Lib.Chains

namespace Pttbbs.Lib

structure Link (Node : Type) where
  target : Option Node
  deleted : Bool
deriving DecidableEq

section MarkedChains

variable {Key Node : Type} {head : Key → Option Node} {link link' : Node → Link Node}
  {chain chain' : Key → List Node}

/-- The chain of every key ends, visits no node twice and shares none with another. -/
structure Chains (head : Key → Option Node) (link : Node → Link Node)
    (chain : Key → List Node) : Prop where
  linked : ∀ key, Linked (fun node => (link node).target) (head key) (chain key)
  single : ∀ key, (chain key).Nodup
  apart : ∀ {left right node}, node ∈ chain left → node ∈ chain right → left = right

def Loose (chain : Key → List Node) (node : Node) : Prop := ∀ key, node ∉ chain key

def Tied (link : Node → Link Node) (chain : Key → List Node) (node : Node) : Prop :=
  (∃ key, node ∈ chain key) ∨ (link node).deleted = true

/-- What a change leaves of a node: its mark, its chain while it is not marked, and
its link if it is marked or in no chain. -/
structure Kept (link : Node → Link Node) (chain : Key → List Node)
    (link' : Node → Link Node) (chain' : Key → List Node) (node : Node) : Prop where
  deleted : (link' node).deleted = (link node).deleted
  back : ∀ key, node ∈ chain' key → node ∈ chain key
  live : (link node).deleted = false → ∀ key, node ∈ chain key → node ∈ chain' key
  frozen : (link node).deleted = true → link' node = link node
  loose : Loose chain node → link' node = link node

namespace Kept

theorem refl (node : Node) : Kept link chain link chain node :=
  { deleted := rfl
    back := fun _ member => member
    live := fun _ _ member => member
    frozen := fun _ => rfl
    loose := fun _ => rfl }

theorem tied {node : Node} (kept : Kept link chain link' chain' node)
    (tied : Tied link chain node) : Tied link' chain' node := by
  cases mark : (link node).deleted with
  | true =>
      right
      rw [kept.deleted, mark]
  | false =>
      rcases tied with ⟨key, member⟩ | deleted
      · exact Or.inl ⟨key, kept.live mark key member⟩
      · rw [mark] at deleted
        cases deleted

theorem stays_loose {node : Node} (kept : Kept link chain link' chain' node)
    (loose : Loose chain node) : Loose chain' node :=
  fun key member => loose key (kept.back key member)

end Kept

namespace Chains

section

variable (chains : Chains head link chain) {key : Key}

include chains

theorem splits {node : Node}
    (member : node ∈ chain key) :
    ∃ front rest, chain key = front ++ node :: rest ∧
      Linked (fun node => (link node).target) (link node).target rest := by
  have linked := chains.linked key
  generalize chain key = nodes at member linked
  generalize head key = start at linked
  induction linked with
  | done => cases member
  | @link first rest tail ih =>
      rcases List.mem_cons.mp member with here | later
      · subst here
        exact ⟨[], rest, rfl, tail⟩
      · obtain ⟨front, behind, whole, follows⟩ := ih later
        exact ⟨first :: front, behind, by rw [whole, List.cons_append], follows⟩

theorem follows {node next : Node}
    (member : node ∈ chain key) (target : (link node).target = some next) :
    ∃ front back, chain key = front ++ node :: next :: back ∧
      Linked (fun node => (link node).target) (link next).target back := by
  obtain ⟨front, rest, whole, behind⟩ := chains.splits member
  rw [target] at behind
  cases behind with
  | @link _ back tail => exact ⟨front, back, whole, tail⟩

theorem head_mem {node : Node}
    (first : head key = some node) : ∃ rest, chain key = node :: rest ∧
      Linked (fun node => (link node).target) (link node).target rest := by
  have linked := chains.linked key
  rw [first] at linked
  generalize chain key = nodes at linked
  cases linked with
  | @link _ rest tail => exact ⟨rest, rfl, tail⟩

theorem target_mem {node next : Node}
    (member : node ∈ chain key) (target : (link node).target = some next) :
    next ∈ chain key := by
  obtain ⟨front, back, whole, _behind⟩ := chains.follows member target
  rw [whole]
  exact List.mem_append_right _ (List.mem_cons_of_mem _ List.mem_cons_self)

theorem target_ne {node : Node}
    (member : node ∈ chain key) : (link node).target ≠ some node := by
  intro target
  obtain ⟨front, back, whole, _behind⟩ := chains.follows member target
  have single := chains.single key
  rw [whole] at single
  have tail := (List.nodup_append.mp single).2.1
  exact (List.nodup_cons.mp tail).1 List.mem_cons_self

theorem second_target_ne {previous node : Node}
    (member : previous ∈ chain key) (target : (link previous).target = some node) :
    (link node).target ≠ some previous := by
  intro again
  obtain ⟨front, back, whole, behind⟩ := chains.follows member target
  have single := chains.single key
  rw [whole] at single
  have tail := (List.nodup_append.mp single).2.1
  rw [again] at behind
  cases behind
  exact (List.nodup_cons.mp tail).1 (List.mem_cons_of_mem _ List.mem_cons_self)

end

variable [DecidableEq Key] [DecidableEq Node]

omit [DecidableEq Key] in
theorem store (chains : Chains head link chain) {node : Node} (loose : Loose chain node)
    (value : Link Node) : Chains head (Function.update link node value) chain := by
  refine ⟨?_, chains.single, chains.apart⟩
  intro key
  apply (chains.linked key).congr
  intro other member
  have different : other ≠ node := by
    intro same
    exact loose key (same ▸ member)
  rw [Function.update_of_ne different]

omit [DecidableEq Key] in
theorem kept_store {node : Node} (value : Link Node) {other : Node} (different : other ≠ node) :
    Kept link chain (Function.update link node value) chain other := by
  have same : Function.update link node value other = link other :=
    Function.update_of_ne different _ _
  exact
    { deleted := by rw [same]
      back := fun _ member => member
      live := fun _ _ member => member
      frozen := fun _ => same
      loose := fun _ => same }

omit [DecidableEq Node] in
/-- A node outside every chain, whose link leads to the first node of a chain, is put
in front of it. -/
theorem push (chains : Chains head link chain) {key : Key} {node : Node}
    (loose : Loose chain node) (target : (link node).target = head key) :
    Chains (Function.update head key (some node)) link
      (Function.update chain key (node :: chain key)) := by
  refine ⟨?_, ?_, ?_⟩
  · intro other
    by_cases same : other = key
    · subst same
      rw [Function.update_self, Function.update_self]
      apply Linked.link
      rw [target]
      exact chains.linked other
    · rw [Function.update_of_ne same, Function.update_of_ne same]
      exact chains.linked other
  · intro other
    by_cases same : other = key
    · subst same
      rw [Function.update_self]
      exact List.nodup_cons.mpr ⟨loose other, chains.single other⟩
    · rw [Function.update_of_ne same]
      exact chains.single other
  · intro left right other inLeft inRight
    by_cases leftSame : left = key <;> by_cases rightSame : right = key
    · rw [leftSame, rightSame]
    · subst leftSame
      rw [Function.update_self] at inLeft
      rw [Function.update_of_ne rightSame] at inRight
      rcases List.mem_cons.mp inLeft with here | later
      · exact absurd (here ▸ inRight) (loose right)
      · exact chains.apart later inRight
    · subst rightSame
      rw [Function.update_self] at inRight
      rw [Function.update_of_ne leftSame] at inLeft
      rcases List.mem_cons.mp inRight with here | later
      · exact absurd (here ▸ inLeft) (loose left)
      · exact chains.apart inLeft later
    · rw [Function.update_of_ne leftSame] at inLeft
      rw [Function.update_of_ne rightSame] at inRight
      exact chains.apart inLeft inRight

omit [DecidableEq Node] in
theorem kept_push {key : Key} {node other : Node} (different : other ≠ node) :
    Kept link chain link (Function.update chain key (node :: chain key)) other := by
  refine
    { deleted := rfl
      back := ?_
      live := ?_
      frozen := fun _ => rfl
      loose := fun _ => rfl }
  · intro place member
    by_cases same : place = key
    · subst same
      rw [Function.update_self] at member
      exact (List.mem_cons.mp member).resolve_left different
    · rwa [Function.update_of_ne same] at member
  · intro _mark place member
    by_cases same : place = key
    · subst same
      rw [Function.update_self]
      exact List.mem_cons_of_mem _ member
    · rwa [Function.update_of_ne same]

omit [DecidableEq Key] in
theorem mark (chains : Chains head link chain) (node : Node) :
    Chains head (Function.update link node { link node with deleted := true }) chain := by
  refine ⟨?_, chains.single, chains.apart⟩
  intro key
  apply (chains.linked key).congr
  intro other _member
  by_cases same : other = node
  · subst same
    rw [Function.update_self]
  · rw [Function.update_of_ne same]

theorem erase_apart (chains : Chains head link chain) {key : Key} {node : Node} :
    (∀ other, (Function.update chain key ((chain key).erase node) other).Nodup) ∧
      ∀ {left right other}, other ∈ Function.update chain key ((chain key).erase node) left →
        other ∈ Function.update chain key ((chain key).erase node) right → left = right := by
  have sub : ∀ place other,
      other ∈ Function.update chain key ((chain key).erase node) place → other ∈ chain place := by
    intro place other member
    by_cases same : place = key
    · subst same
      rw [Function.update_self] at member
      exact List.mem_of_mem_erase member
    · rwa [Function.update_of_ne same] at member
  constructor
  · intro other
    by_cases same : other = key
    · subst same
      rw [Function.update_self]
      exact (chains.single other).erase node
    · rw [Function.update_of_ne same]
      exact chains.single other
  · intro left right other inLeft inRight
    exact chains.apart (sub left other inLeft) (sub right other inRight)

theorem pop (chains : Chains head link chain) {key : Key} {node : Node}
    (first : head key = some node) :
    Chains (Function.update head key (link node).target) link
      (Function.update chain key ((chain key).erase node)) := by
  refine ⟨?_, chains.erase_apart.1, chains.erase_apart.2⟩
  intro other
  by_cases same : other = key
  · subst same
    obtain ⟨rest, whole, behind⟩ := chains.head_mem first
    rw [Function.update_self, Function.update_self, whole, List.erase_cons_head]
    exact behind
  · rw [Function.update_of_ne same, Function.update_of_ne same]
    exact chains.linked other

theorem unlink (chains : Chains head link chain) {key : Key} {previous node : Node}
    (member : previous ∈ chain key) (target : (link previous).target = some node) (flag : Bool) :
    Chains head (Function.update link previous ⟨(link node).target, flag⟩)
      (Function.update chain key ((chain key).erase node)) := by
  refine ⟨?_, chains.erase_apart.1, chains.erase_apart.2⟩
  have targets : (fun other => (Function.update link previous ⟨(link node).target, flag⟩
      other).target) =
        Function.update (fun other => (link other).target) previous (link node).target := by
    funext other
    by_cases same : other = previous
    · subst same
      rw [Function.update_self, Function.update_self]
    · rw [Function.update_of_ne same, Function.update_of_ne same]
  intro other
  rw [targets]
  by_cases same : other = key
  · subst same
    obtain ⟨front, back, whole, _behind⟩ := chains.follows member target
    have single := chains.single other
    have linked := chains.linked other
    rw [whole] at single linked
    have erased : (front ++ previous :: node :: back).erase node = front ++ previous :: back := by
      have parts := List.nodup_append.mp single
      have inFront : node ∉ front := by
        intro present
        exact parts.2.2 node present node (by simp) rfl
      have different : previous ≠ node := by
        intro same
        exact (List.nodup_cons.mp parts.2.1).1 (same ▸ List.mem_cons_self)
      rw [List.erase_append_right _ inFront, List.erase_cons_tail (by simpa using different),
        List.erase_cons_head]
    rw [Function.update_self, whole, erased]
    exact linked.unlink single
  · rw [Function.update_of_ne same]
    apply (chains.linked other).update
    intro present
    exact same (chains.apart present member)

theorem kept_erase {key : Key} {node : Node} (marked : (link node).deleted = true)
    (other : Node) :
    Kept link chain link (Function.update chain key ((chain key).erase node)) other := by
  refine
    { deleted := rfl
      back := ?_
      live := ?_
      frozen := fun _ => rfl
      loose := fun _ => rfl }
  · intro place member
    by_cases same : place = key
    · subst same
      rw [Function.update_self] at member
      exact List.mem_of_mem_erase member
    · rwa [Function.update_of_ne same] at member
  · intro mark place member
    have different : other ≠ node := by
      intro same
      rw [same, marked] at mark
      cases mark
    by_cases same : place = key
    · subst same
      rw [Function.update_self]
      exact (List.mem_erase_of_ne different).mpr member
    · rwa [Function.update_of_ne same]

theorem kept_unlink {key : Key} {previous node : Node} {value : Link Node}
    (member : previous ∈ chain key) (unmarked : (link previous).deleted = false)
    (fresh : value.deleted = false) (marked : (link node).deleted = true) (other : Node) :
    Kept link chain (Function.update link previous value)
      (Function.update chain key ((chain key).erase node)) other := by
  have erased : Kept link chain link (Function.update chain key ((chain key).erase node)) other :=
    kept_erase marked other
  by_cases same : other = previous
  · subst same
    refine
      { deleted := ?_
        back := erased.back
        live := erased.live
        frozen := ?_
        loose := ?_ }
    · rw [Function.update_self, fresh, unmarked]
    · intro mark
      rw [unmarked] at mark
      cases mark
    · intro loose
      exact absurd member (loose key)
  · have unchanged : Function.update link previous value other = link other :=
      Function.update_of_ne same _ _
    exact
      { deleted := by rw [unchanged]
        back := erased.back
        live := erased.live
        frozen := fun _ => unchanged
        loose := fun _ => unchanged }

end Chains

end MarkedChains

end Pttbbs.Lib
