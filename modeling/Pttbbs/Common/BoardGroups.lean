/-
The boards of a group, threaded through their headers.

`resolve_board_group` goes over an index of all boards and links those of one group: the group's
own header points to the first, every board to the next, and the last to -1.  The first board of
the list is told by the loop still standing on the group itself.
-/

import Pttbbs.Common.BoardTable
import Pttbbs.Lib.Chains

namespace Pttbbs.Common.BoardTable

open Pttbbs.Lib

/-! ### Resolving -/

def BoardHeader.setNext (board : BoardHeader) (type : GroupType) (bid : Int) : BoardHeader :=
  { board with next := Function.update board.next type bid }

def BoardHeader.setFirstchild (board : BoardHeader) (type : GroupType) (bid : Int) : BoardHeader :=
  { board with firstchild := Function.update board.firstchild type bid }

/-- The variables of the loop; the pointers are held as the bids they point to. -/
structure Loop where
  bcache : Int → BoardHeader
  currbptr : Int
  childcount : Int

/-- `currbptr` is linked to the next board, which is the first one if the loop still stands on the
group. -/
def linkBoard (gid : Int) (type : GroupType) (loop : Loop) (bid : Int) : Loop :=
  { bcache :=
      if loop.currbptr = gid then
        Function.update loop.bcache gid ((loop.bcache gid).setFirstchild type bid)
      else
        Function.update loop.bcache loop.currbptr
          { (loop.bcache loop.currbptr).setNext type bid with parent := gid }
    currbptr := bid
    childcount := loop.childcount + 1 }

/-- One turn of the loop on an entry of the index.  `getbcache` is never null. -/
def resolveStep (gid : Int) (type : GroupType) (loop : Loop) (entry : Int) : Loop :=
  let bid := entry + 1
  let bptr := loop.bcache bid
  if bid ≤ 0 ∨ bptr.brdname.bytes = [] then loop
  else if bptr.gid = gid then linkBoard gid type loop bid
  else loop

def countBoards (gid : Int) (loop : Loop) : Int → BoardHeader :=
  Function.update loop.bcache gid { loop.bcache gid with childcount := loop.childcount }

def closeGroup (gid : Int) (type : GroupType) (loop : Loop) : Int → BoardHeader :=
  let bcache := countBoards gid loop
  if loop.currbptr = gid then
    Function.update bcache gid ((bcache gid).setFirstchild type (-1))
  else
    Function.update bcache loop.currbptr ((bcache loop.currbptr).setNext type (-1))

/-- There is no result where an assertion fails. -/
def resolveBoardGroup (shm : Shm) (gid : Int) (type : GroupType) : Option Shm :=
  if 0 ≤ gid - 1 ∧ gid - 1 < maxBoard ∧ shm.bnumber ≤ maxBoard then
    some { shm with
      bcache := closeGroup gid type
        ((shm.bsorted type).foldl (resolveStep gid type) ⟨shm.bcache, gid, 0⟩) }
  else none

/-! ### Groups -/

def follow (link : Int) : Option Int := if link = -1 then none else some link

def Lists (shm : Shm) (gid : Int) (type : GroupType) (bids : List Int) : Prop :=
  Linked (fun bid => follow ((shm.bcache bid).next type))
    (follow ((shm.bcache gid).firstchild type)) bids

def InGroup (shm : Shm) (gid bid : Int) : Prop :=
  1 ≤ bid ∧ bid ≤ shm.bnumber ∧ (shm.bcache bid).gid = gid ∧ (shm.bcache bid).brdname.bytes ≠ []

structure ListsGroup (shm after : Shm) (gid : Int) (type : GroupType) : Prop where
  /-- The boards of the group in the order of the index, each once. -/
  listed : ∃ bids, Lists after gid type bids ∧ (∀ bid, bid ∈ bids ↔ InGroup shm gid bid) ∧
    bids.Nodup ∧ (bids.map (· - 1)).Sublist (shm.bsorted type) ∧
    (after.bcache gid).childcount = bids.length
  parents : ∀ bid, InGroup shm gid bid → (after.bcache bid).parent = gid
  otherCounts : ∀ other, other ≠ gid →
    (after.bcache other).childcount = (shm.bcache other).childcount
  otherParents : ∀ bid, (shm.bcache bid).gid ≠ gid →
    (after.bcache bid).parent = (shm.bcache bid).parent
  /-- A list of boards of another group, or of this one in the other order, is what it was. -/
  others : ∀ other order bids, (other, order) ≠ (gid, type) →
    (∀ bid ∈ bids, (shm.bcache bid).gid = other) → Lists shm other order bids →
    Lists after other order bids

/-! ### What is written -/

section Frame

variable {gid : Int} {type : GroupType}

/-- Only the first child and the count of the group itself change, and the links and parents of
its boards. -/
structure OnlyGroup (gid : Int) (type : GroupType) (before after : Int → BoardHeader) : Prop where
  brdname : ∀ bid, (after bid).brdname = (before bid).brdname
  group : ∀ bid, (after bid).gid = (before bid).gid
  next : ∀ bid order, order ≠ type ∨ bid = gid ∨ (before bid).gid ≠ gid →
    (after bid).next order = (before bid).next order
  firstchild : ∀ bid order, order ≠ type ∨ bid ≠ gid →
    (after bid).firstchild order = (before bid).firstchild order
  parent : ∀ bid, bid = gid ∨ (before bid).gid ≠ gid → (after bid).parent = (before bid).parent
  childcount : ∀ bid, bid ≠ gid → (after bid).childcount = (before bid).childcount

theorem OnlyGroup.trans {first second third : Int → BoardHeader}
    (front : OnlyGroup gid type first second) (back : OnlyGroup gid type second third) :
    OnlyGroup gid type first third where
  brdname bid := (back.brdname bid).trans (front.brdname bid)
  group bid := (back.group bid).trans (front.group bid)
  next bid order away :=
    (back.next bid order (by rwa [front.group])).trans (front.next bid order away)
  firstchild bid order away :=
    (back.firstchild bid order away).trans (front.firstchild bid order away)
  parent bid away := (back.parent bid (by rwa [front.group])).trans (front.parent bid away)
  childcount bid away := (back.childcount bid away).trans (front.childcount bid away)

theorem OnlyGroup.update {bcache : Int → BoardHeader} {place : Int} {board : BoardHeader}
    (brdname : board.brdname = (bcache place).brdname) (group : board.gid = (bcache place).gid)
    (next : ∀ order, order ≠ type ∨ place = gid ∨ (bcache place).gid ≠ gid →
      board.next order = (bcache place).next order)
    (firstchild : ∀ order, order ≠ type ∨ place ≠ gid →
      board.firstchild order = (bcache place).firstchild order)
    (parent : place = gid ∨ (bcache place).gid ≠ gid → board.parent = (bcache place).parent)
    (childcount : place ≠ gid → board.childcount = (bcache place).childcount) :
    OnlyGroup gid type bcache (Function.update bcache place board) := by
  have here : ∀ bid, bid = place ∧ Function.update bcache place board bid = board ∨
      Function.update bcache place board bid = bcache bid := by
    intro bid
    by_cases same : bid = place
    · left
      rw [same]
      exact ⟨rfl, Function.update_self ..⟩
    · exact .inr (Function.update_of_ne same ..)
  constructor
  · intro bid
    rcases here bid with ⟨rfl, written⟩ | kept
    · rw [written, brdname]
    · rw [kept]
  · intro bid
    rcases here bid with ⟨rfl, written⟩ | kept
    · rw [written, group]
    · rw [kept]
  · intro bid order away
    rcases here bid with ⟨rfl, written⟩ | kept
    · rw [written, next order away]
    · rw [kept]
  · intro bid order away
    rcases here bid with ⟨rfl, written⟩ | kept
    · rw [written, firstchild order away]
    · rw [kept]
  · intro bid away
    rcases here bid with ⟨rfl, written⟩ | kept
    · rw [written, parent away]
    · rw [kept]
  · intro bid away
    rcases here bid with ⟨rfl, written⟩ | kept
    · rw [written, childcount away]
    · rw [kept]

def Loop.Stands (loop : Loop) (gid : Int) : Prop :=
  loop.currbptr = gid ∨ (loop.bcache loop.currbptr).gid = gid

theorem linkBoard_onlyGroup {loop : Loop} (stands : loop.Stands gid) (bid : Int) :
    OnlyGroup gid type loop.bcache (linkBoard gid type loop bid).bcache := by
  rw [linkBoard]
  dsimp only
  split
  · refine OnlyGroup.update rfl rfl (fun _ _ => rfl) ?_ (fun _ => rfl) (fun _ => rfl)
    intro order away
    exact Function.update_of_ne (away.resolve_right (not_not.mpr rfl)) ..
  · rename_i inside
    have board := stands.resolve_left inside
    refine OnlyGroup.update rfl rfl ?_ (fun _ _ => rfl) ?_ (fun _ => rfl)
    · intro order away
      exact Function.update_of_ne
        (away.resolve_right (not_or.mpr ⟨inside, not_not.mpr board⟩)) ..
    · intro away
      exact absurd away (not_or.mpr ⟨inside, not_not.mpr board⟩)

theorem closeGroup_onlyGroup {loop : Loop} (stands : loop.Stands gid) :
    OnlyGroup gid type loop.bcache (closeGroup gid type loop) := by
  have counted : OnlyGroup gid type loop.bcache (countBoards gid loop) :=
    OnlyGroup.update rfl rfl (fun _ _ => rfl) (fun _ _ => rfl) (fun _ => rfl)
      (fun away => absurd rfl away)
  rw [closeGroup]
  split
  · refine counted.trans (OnlyGroup.update rfl rfl (fun _ _ => rfl) ?_ (fun _ => rfl)
      (fun _ => rfl))
    intro order away
    exact Function.update_of_ne (away.resolve_right (not_not.mpr rfl)) ..
  · rename_i inside
    have board := stands.resolve_left inside
    refine counted.trans (OnlyGroup.update rfl rfl ?_ (fun _ _ => rfl) (fun _ => rfl)
      (fun _ => rfl))
    intro order away
    rw [counted.group] at away
    exact Function.update_of_ne (away.resolve_right (not_or.mpr ⟨inside, not_not.mpr board⟩)) ..

/-! ### The boards of a group -/

def members (bcache : Int → BoardHeader) (gid : Int) (entries : List Int) : List Int :=
  (entries.map (· + 1)).filter fun bid =>
    0 < bid ∧ (bcache bid).brdname.bytes ≠ [] ∧ (bcache bid).gid = gid

theorem mem_members {bcache : Int → BoardHeader} {entries : List Int} {bid : Int} :
    bid ∈ members bcache gid entries ↔
      bid - 1 ∈ entries ∧ 0 < bid ∧ (bcache bid).brdname.bytes ≠ [] ∧ (bcache bid).gid = gid := by
  rw [members, List.mem_filter, decide_eq_true_iff, List.mem_map]
  refine and_congr_left fun _ => ?_
  constructor
  · rintro ⟨entry, member, rfl⟩
    rwa [Int.add_sub_cancel]
  · intro member
    exact ⟨_, member, Int.sub_add_cancel ..⟩

theorem OnlyGroup.members_eq {before after : Int → BoardHeader}
    (only : OnlyGroup gid type before after) (entries : List Int) :
    members after gid entries = members before gid entries := by
  unfold members
  simp only [only.brdname, only.group]

theorem resolveStep_of_member {loop : Loop} {entry : Int}
    (member : 0 < entry + 1 ∧ (loop.bcache (entry + 1)).brdname.bytes ≠ [] ∧
      (loop.bcache (entry + 1)).gid = gid) :
    resolveStep gid type loop entry = linkBoard gid type loop (entry + 1) := by
  rw [resolveStep, if_neg (not_or.mpr ⟨Int.not_le.mpr member.1, member.2.1⟩), if_pos member.2.2]

theorem resolveStep_of_other {loop : Loop} {entry : Int}
    (other : ¬(0 < entry + 1 ∧ (loop.bcache (entry + 1)).brdname.bytes ≠ [] ∧
      (loop.bcache (entry + 1)).gid = gid)) :
    resolveStep gid type loop entry = loop := by
  rw [resolveStep]
  split
  · rfl
  · rename_i valid
    obtain ⟨positive, named⟩ := not_or.mp valid
    rw [if_neg fun same => other ⟨Int.not_le.mp positive, named, same⟩]

theorem foldl_resolveStep (entries : List Int) {loop : Loop} (stands : loop.Stands gid) :
    entries.foldl (resolveStep gid type) loop =
      (members loop.bcache gid entries).foldl (linkBoard gid type) loop := by
  induction entries generalizing loop with
  | nil => rfl
  | cons entry entries ih =>
      rw [List.foldl_cons, members, List.map_cons]
      by_cases member : 0 < entry + 1 ∧ (loop.bcache (entry + 1)).brdname.bytes ≠ [] ∧
          (loop.bcache (entry + 1)).gid = gid
      · have only := @linkBoard_onlyGroup gid type _ stands (entry + 1)
        have next : (linkBoard gid type loop (entry + 1)).Stands gid :=
          .inr ((only.group (entry + 1)).trans member.2.2)
        rw [List.filter_cons, if_pos (decide_eq_true member), List.foldl_cons,
          resolveStep_of_member member, ih next, only.members_eq]
        rfl
      · rw [List.filter_cons, if_neg (by rwa [decide_eq_true_iff]), resolveStep_of_other member,
          ih stands]
        rfl

def threaded (gid : Int) (type : GroupType) (loop : Loop) (bids : List Int) :
    Int → BoardHeader :=
  closeGroup gid type (bids.foldl (linkBoard gid type) loop)

theorem threaded_onlyGroup {bids : List Int} {loop : Loop} (stands : loop.Stands gid)
    (inside : ∀ bid ∈ bids, (loop.bcache bid).gid = gid) :
    OnlyGroup gid type loop.bcache (threaded gid type loop bids) := by
  induction bids generalizing loop with
  | nil => exact closeGroup_onlyGroup stands
  | cons bid bids ih =>
      have only := @linkBoard_onlyGroup gid type _ stands bid
      refine only.trans (ih (.inr ?_) ?_)
      · exact (only.group bid).trans (inside bid List.mem_cons_self)
      · intro other member
        exact (only.group other).trans (inside other (List.mem_cons_of_mem _ member))

end Frame

/-! ### The list -/

section Threads

variable {gid : Int} {type : GroupType}

def linkOf (gid : Int) (type : GroupType) (bcache : Int → BoardHeader) (bid : Int) : Int :=
  if bid = gid then (bcache bid).firstchild type else (bcache bid).next type

theorem linkBoard_linkOf (loop : Loop) (bid : Int) :
    linkOf gid type (linkBoard gid type loop bid).bcache loop.currbptr = bid := by
  rw [linkBoard, linkOf]
  dsimp only
  split
  · rename_i same
    rw [same, Function.update_self]
    exact Function.update_self ..
  · rw [Function.update_self]
    exact Function.update_self ..

theorem linkBoard_apart (loop : Loop) (bid : Int) {other : Int} (apart : other ≠ loop.currbptr) :
    (linkBoard gid type loop bid).bcache other = loop.bcache other := by
  rw [linkBoard]
  dsimp only
  split
  · rename_i same
    rw [same] at apart
    exact Function.update_of_ne apart ..
  · exact Function.update_of_ne apart ..

theorem linkBoard_parent {loop : Loop} (bid : Int) (inside : loop.currbptr ≠ gid) :
    ((linkBoard gid type loop bid).bcache loop.currbptr).parent = gid := by
  rw [linkBoard]
  dsimp only
  rw [if_neg inside, Function.update_self]

theorem closeGroup_linkOf (loop : Loop) :
    linkOf gid type (closeGroup gid type loop) loop.currbptr = -1 := by
  rw [closeGroup, linkOf]
  split
  · rename_i same
    rw [same, Function.update_self]
    exact Function.update_self ..
  · rw [Function.update_self]
    exact Function.update_self ..

theorem countBoards_fields (loop : Loop) (bid : Int) :
    (countBoards gid loop bid).firstchild = (loop.bcache bid).firstchild ∧
      (countBoards gid loop bid).next = (loop.bcache bid).next ∧
      (countBoards gid loop bid).parent = (loop.bcache bid).parent := by
  rw [countBoards]
  by_cases same : bid = gid
  · rw [same, Function.update_self]
    exact ⟨rfl, rfl, rfl⟩
  · rw [Function.update_of_ne same]
    exact ⟨rfl, rfl, rfl⟩

theorem closeGroup_apart (loop : Loop) {other : Int} (apart : other ≠ loop.currbptr) :
    linkOf gid type (closeGroup gid type loop) other = linkOf gid type loop.bcache other ∧
      ((closeGroup gid type loop) other).parent = (loop.bcache other).parent := by
  have here : closeGroup gid type loop other = countBoards gid loop other := by
    rw [closeGroup]
    split
    · rename_i same
      rw [same] at apart
      exact Function.update_of_ne apart ..
    · exact Function.update_of_ne apart ..
  obtain ⟨firstchild, next, parent⟩ := @countBoards_fields gid loop other
  rw [linkOf, linkOf, here, firstchild, next, parent]
  exact ⟨rfl, rfl⟩

theorem closeGroup_parent (loop : Loop) :
    ((closeGroup gid type loop) loop.currbptr).parent = (loop.bcache loop.currbptr).parent := by
  rw [← (@countBoards_fields gid loop loop.currbptr).2.2, closeGroup]
  split
  · rename_i same
    rw [same, Function.update_self]
    rfl
  · rw [Function.update_self]
    rfl

theorem threaded_apart (bids : List Int) {loop : Loop} {other : Int}
    (apart : other ∉ loop.currbptr :: bids) :
    linkOf gid type (threaded gid type loop bids) other = linkOf gid type loop.bcache other ∧
      ((threaded gid type loop bids) other).parent = (loop.bcache other).parent := by
  induction bids generalizing loop with
  | nil => exact closeGroup_apart loop fun same => apart (by rw [same]; exact List.mem_cons_self)
  | cons bid bids ih =>
      have rest := @ih (linkBoard gid type loop bid)
        fun inside => apart (List.mem_cons_of_mem _ inside)
      have here := @linkBoard_apart gid type loop bid other
        fun same => apart (by rw [same]; exact List.mem_cons_self)
      rw [linkOf, linkOf, here] at rest
      rw [linkOf, linkOf]
      exact rest

theorem threaded_linked {bids : List Int} {loop : Loop} (single : (loop.currbptr :: bids).Nodup)
    (notOwn : gid ∉ bids) (valid : ∀ bid ∈ bids, bid ≠ -1) :
    Linked (fun bid => follow (((threaded gid type loop bids) bid).next type))
      (follow (linkOf gid type (threaded gid type loop bids) loop.currbptr)) bids := by
  induction bids generalizing loop with
  | nil =>
      rw [threaded, List.foldl_nil, closeGroup_linkOf]
      exact Linked.done
  | cons bid bids ih =>
      obtain ⟨apart, single⟩ := List.nodup_cons.mp single
      have rest := @ih (linkBoard gid type loop bid) single
        (fun inside => notOwn (List.mem_cons_of_mem _ inside))
        (fun other member => valid other (List.mem_cons_of_mem _ member))
      have own : bid ≠ gid := by
        rintro rfl
        exact notOwn List.mem_cons_self
      have first : linkOf gid type (threaded gid type loop (bid :: bids)) loop.currbptr = bid :=
        (@threaded_apart gid type bids (linkBoard gid type loop bid) _ apart).1.trans
          (linkBoard_linkOf loop bid)
      rw [first, follow, if_neg (valid bid List.mem_cons_self)]
      apply Linked.link
      change Linked _ (follow (linkOf gid type (threaded gid type (linkBoard gid type loop bid) bids)
        bid)) bids at rest
      rw [linkOf, if_neg own] at rest
      exact rest

theorem threaded_parents {bids : List Int} {loop : Loop} (single : (loop.currbptr :: bids).Nodup)
    (notOwn : gid ∉ bids) :
    ∀ bid ∈ bids, ((threaded gid type loop bids) bid).parent =
      if bids.getLast? = some bid then (loop.bcache bid).parent else gid := by
  induction bids generalizing loop with
  | nil =>
      intro bid member
      cases member
  | cons first bids ih =>
      obtain ⟨apart, distinct⟩ := List.nodup_cons.mp single
      have own : first ≠ gid := by
        rintro rfl
        exact notOwn List.mem_cons_self
      have here : ∀ other, other ≠ loop.currbptr →
          (linkBoard gid type loop first).bcache other = loop.bcache other :=
        fun other apart => linkBoard_apart loop first apart
      have rest := @ih (linkBoard gid type loop first) distinct
        (fun inside => notOwn (List.mem_cons_of_mem _ inside))
      intro bid member
      rcases List.mem_cons.mp member with rfl | later
      · cases bids with
        | nil =>
            rw [List.getLast?_singleton, if_pos rfl]
            refine (closeGroup_parent (linkBoard gid type loop bid)).trans ?_
            exact congrArg BoardHeader.parent
              (here bid fun same => apart (by rw [same]; exact List.mem_cons_self))
        | cons second others =>
            have away : bid ∉ second :: others := (List.nodup_cons.mp distinct).1
            have notLast : (bid :: second :: others).getLast? ≠ some bid := by
              rw [List.getLast?_cons_cons]
              intro last
              exact away (List.mem_of_getLast? last)
            rw [if_neg notLast]
            refine (@threaded_apart gid type others
              (linkBoard gid type (linkBoard gid type loop bid) second) bid away).2.trans ?_
            exact @linkBoard_parent _ _ (linkBoard gid type loop bid) second own
      · obtain ⟨second, others, rfl⟩ := List.exists_cons_of_ne_nil (List.ne_nil_of_mem later)
        rw [List.getLast?_cons_cons]
        refine (rest bid later).trans ?_
        rw [here bid fun same => apart (by rw [← same]; exact List.mem_cons_of_mem _ later)]

theorem threaded_childcount (bids : List Int) (loop : Loop) :
    ((threaded gid type loop bids) gid).childcount = loop.childcount + bids.length := by
  have counted : (bids.foldl (linkBoard gid type) loop).childcount =
      loop.childcount + bids.length := by
    induction bids generalizing loop with
    | nil => exact (Int.add_zero _).symm
    | cons bid bids ih =>
        rw [List.foldl_cons, ih, List.length_cons]
        change loop.childcount + 1 + _ = _
        omega
  have written : ∀ loop : Loop, (countBoards gid loop gid).childcount = loop.childcount := by
    intro loop
    rw [countBoards, Function.update_self]
  rw [← counted, ← written, threaded, closeGroup]
  split
  · rw [Function.update_self]
    rfl
  · rename_i away
    rw [Function.update_of_ne (Ne.symm away)]

end Threads

/-! ### When a group is listed -/

/-- The group is not one of its own boards, and the board that the index lists last of them has its
parent already. -/
structure Resolvable (shm : Shm) (gid : Int) (type : GroupType) : Prop where
  notOwn : ¬ InGroup shm gid gid
  lastParent : ∀ last, (members shm.bcache gid (shm.bsorted type)).getLast? = some last →
    (shm.bcache last).parent = gid

section Resolve

variable {shm : Shm} {gid : Int} {type : GroupType}

theorem ListsAll.mem_members (all : ListsAll shm type) {bid : Int} :
    bid ∈ members shm.bcache gid (shm.bsorted type) ↔ InGroup shm gid bid := by
  rw [BoardTable.mem_members, all.mem_iff, InGroup]
  constructor
  · rintro ⟨range, positive, named, same⟩
    exact ⟨positive, by omega, same, named⟩
  · rintro ⟨low, high, same, named⟩
    exact ⟨by omega, low, named, same⟩

theorem ListsAll.members_nodup (all : ListsAll shm type) :
    (members shm.bcache gid (shm.bsorted type)).Nodup :=
  List.Nodup.filter _ (List.Nodup.map (fun _ _ same => (Int.add_left_inj 1).mp same)
    all.nodup)

theorem members_sublist (shm : Shm) (gid : Int) (type : GroupType) :
    ((members shm.bcache gid (shm.bsorted type)).map (· - 1)).Sublist (shm.bsorted type) := by
  have back : ((shm.bsorted type).map (· + 1)).map (· - 1) = shm.bsorted type := by
    rw [List.map_map]
    exact List.map_id'' (fun entry => Int.add_sub_cancel ..) _
  have sub : ((members shm.bcache gid (shm.bsorted type)).map (· - 1)).Sublist
      (((shm.bsorted type).map (· + 1)).map (· - 1)) := List.filter_sublist.map _
  rwa [back] at sub

def resolved (shm : Shm) (gid : Int) (type : GroupType) : Shm :=
  { shm with
    bcache := threaded gid type ⟨shm.bcache, gid, 0⟩
      (members shm.bcache gid (shm.bsorted type)) }

theorem resolveBoardGroup_eq (valid : 1 ≤ gid ∧ gid ≤ maxBoard) (fits : shm.bnumber ≤ maxBoard) :
    resolveBoardGroup shm gid type = some (resolved shm gid type) := by
  rw [resolveBoardGroup, if_pos ⟨by omega, by omega, fits⟩,
    @foldl_resolveStep gid type (shm.bsorted type) ⟨shm.bcache, gid, 0⟩ (.inl rfl)]
  rfl

theorem resolved_onlyGroup (shm : Shm) (gid : Int) (type : GroupType) :
    OnlyGroup gid type shm.bcache (resolved shm gid type).bcache := by
  refine @threaded_onlyGroup gid type _ ⟨shm.bcache, gid, 0⟩ (.inl rfl) ?_
  intro bid member
  exact (mem_members.mp member).2.2.2

theorem OnlyGroup.lists_other {after : Shm} (only : OnlyGroup gid type shm.bcache after.bcache)
    {other : Int} {order : GroupType} {bids : List Int} (apart : (other, order) ≠ (gid, type))
    (inside : ∀ bid ∈ bids, (shm.bcache bid).gid = other) (lists : Lists shm other order bids) :
    Lists after other order bids := by
  have away : order ≠ type ∨ other ≠ gid := by
    by_contra both
    obtain ⟨order, group⟩ := not_or.mp both
    exact apart (Prod.ext (not_not.mp group) (not_not.mp order))
  rw [Lists, only.firstchild other order away]
  refine lists.congr ?_
  intro bid member
  rw [only.next bid order (away.imp_right fun differ => .inr (by rwa [inside bid member]))]

theorem resolved_lists (all : ListsAll shm type) (notOwn : ¬ InGroup shm gid gid) :
    Lists (resolved shm gid type) gid type (members shm.bcache gid (shm.bsorted type)) := by
  have outside : gid ∉ members shm.bcache gid (shm.bsorted type) := by
    rwa [all.mem_members]
  have linked := @threaded_linked gid type _ ⟨shm.bcache, gid, 0⟩
    (List.nodup_cons.mpr ⟨outside, all.members_nodup⟩) outside (by
      intro bid member
      have positive := (mem_members.mp member).2.1
      omega)
  rw [linkOf, if_pos rfl] at linked
  exact linked

theorem resolved_own (all : ListsAll shm type) (own : InGroup shm gid gid) :
    ∃ behind, Lists (resolved shm gid type) gid type behind ∧ gid ∉ behind := by
  rw [← all.mem_members] at own
  obtain ⟨front, behind, split⟩ := List.append_of_mem own
  have single := @ListsAll.members_nodup shm gid type all
  rw [split] at single
  have apart := (List.nodup_cons.mp (List.nodup_append.mp single).2.1)
  refine ⟨behind, ?_, apart.1⟩
  have linked := @threaded_linked gid type behind
    ((front ++ [gid]).foldl (linkBoard gid type) ⟨shm.bcache, gid, 0⟩)
    (by
      rw [List.foldl_concat]
      exact List.nodup_cons.mpr apart) apart.1 (by
      intro bid member
      have positive := (mem_members.mp (split ▸ List.mem_append_right front
        (List.mem_cons_of_mem gid member))).2.1
      omega)
  rw [Lists, resolved]
  dsimp only
  rw [split, show front ++ gid :: behind = (front ++ [gid]) ++ behind by simp, threaded,
    List.foldl_append]
  rw [threaded, List.foldl_concat] at linked
  rw [List.foldl_concat]
  change Linked _ (follow (linkOf gid type _ gid)) behind at linked
  rw [linkOf, if_pos rfl] at linked
  exact linked

theorem resolved_parent (all : ListsAll shm type) (notOwn : ¬ InGroup shm gid gid) {bid : Int}
    (inside : InGroup shm gid bid) :
    ((resolved shm gid type).bcache bid).parent =
      if (members shm.bcache gid (shm.bsorted type)).getLast? = some bid then
        (shm.bcache bid).parent else gid := by
  have outside : gid ∉ members shm.bcache gid (shm.bsorted type) := by
    rwa [all.mem_members]
  exact @threaded_parents gid type _ ⟨shm.bcache, gid, 0⟩
    (List.nodup_cons.mpr ⟨outside, all.members_nodup⟩) outside bid (all.mem_members.mpr inside)

theorem ListsGroup.resolvable (lists : ListsGroup shm (resolved shm gid type) gid type)
    (all : ListsAll shm type) : Resolvable shm gid type := by
  have notOwn : ¬ InGroup shm gid gid := by
    intro own
    obtain ⟨bids, listed, exactly, _⟩ := lists.listed
    obtain ⟨behind, short, apart⟩ := resolved_own all own
    rw [listed.unique short] at exactly
    exact apart ((exactly gid).mpr own)
  refine ⟨notOwn, ?_⟩
  intro last isLast
  have inside := all.mem_members.mp (List.mem_of_getLast? isLast)
  have parent := resolved_parent all notOwn inside
  rw [if_pos isLast, lists.parents last inside] at parent
  exact parent.symm

theorem Resolvable.listsGroup (resolvable : Resolvable shm gid type) (all : ListsAll shm type) :
    ListsGroup shm (resolved shm gid type) gid type := by
  have only := resolved_onlyGroup shm gid type
  constructor
  · exact ⟨members shm.bcache gid (shm.bsorted type), resolved_lists all resolvable.notOwn,
      fun bid => all.mem_members, all.members_nodup, members_sublist shm gid type,
      (threaded_childcount _ _).trans (Int.zero_add _)⟩
  · intro bid inside
    rw [resolved_parent all resolvable.notOwn inside]
    split
    · rename_i isLast
      exact resolvable.lastParent bid isLast
    · rfl
  · exact only.childcount
  · intro bid apart
    exact only.parent bid (.inr apart)
  · intro other order bids apart inside lists
    exact only.lists_other apart inside lists

/-- Resolving a group lists its boards if and only if the group is none of them and the last of
them has its parent already. -/
theorem listsGroup_iff (all : ListsAll shm type) (valid : 1 ≤ gid ∧ gid ≤ maxBoard)
    (fits : shm.bnumber ≤ maxBoard) :
    ∃ after, resolveBoardGroup shm gid type = some after ∧
      (ListsGroup shm after gid type ↔ Resolvable shm gid type) :=
  ⟨resolved shm gid type, resolveBoardGroup_eq valid fits,
    fun lists => lists.resolvable all, fun resolvable => resolvable.listsGroup all⟩

end Resolve

theorem test_ok : (0 : UInt8) ∉ utf8 "Test" := by decide

def newBoard : Shm where
  bnumber := 2
  bcache bid :=
    if bid = 1 then { brdname := ⟨utf8 "Class", by decide⟩ }
    else if bid = 2 then { brdname := ⟨utf8 "Test", test_ok⟩, gid := 1 }
    else { brdname := default }
  bsorted _ := [0, 1]

theorem listsGroup_iff_newBoard :
    ∃ after, resolveBoardGroup newBoard 1 .name = some after ∧
      (ListsGroup newBoard after 1 .name ↔ Resolvable newBoard 1 .name) :=
  listsGroup_iff (List.Perm.refl _) (by decide) (by decide)

def ownClass : Shm where
  bnumber := 2
  bcache bid :=
    if bid = 1 then { brdname := ⟨utf8 "Board", by decide⟩, gid := 2, parent := 2 }
    else if bid = 2 then { brdname := ⟨utf8 "Class", by decide⟩, gid := 2, parent := 2 }
    else { brdname := default }
  bsorted _ := [0, 1]

/-- The last board of a group does not get its parent, and a class that is its own board loses the
boards in front of it. -/
theorem not_listsGroup_samples :
    (∃ after, resolveBoardGroup newBoard 1 .name = some after ∧
        ¬ ListsGroup newBoard after 1 .name) ∧
      ∃ after, resolveBoardGroup ownClass 2 .name = some after ∧
        ¬ ListsGroup ownClass after 2 .name := by
  constructor
  · refine ⟨_, resolveBoardGroup_eq (by decide) (by decide), ?_⟩
    intro lists
    have parent := (lists.resolvable (List.Perm.refl _)).lastParent 2 (by decide)
    exact absurd parent (by decide)
  · refine ⟨_, resolveBoardGroup_eq (by decide) (by decide), ?_⟩
    intro lists
    exact (lists.resolvable (List.Perm.refl _)).notOwn
      ⟨by decide, by decide, by decide, by decide⟩

end Pttbbs.Common.BoardTable
