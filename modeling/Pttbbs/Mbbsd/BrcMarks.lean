/-
What marking an article does to the answers about the others.

The list of a board says which articles are read: those with an entry, and those before its
last entry.  A list without an entry says nothing, so its first entry makes everything before
it read; a board without a record has the entry with the time 1 in its place.
-/

import Pttbbs.Mbbsd.BrcRoundTrip

namespace Pttbbs.Mbbsd.ReadMarks

section Added

variable {entry : BrcRec} {list longer : List BrcRec}

theorem unreadIn_addTo_none (unchanged : addTo entry list = none) :
    unreadIn entry.create entry.modified list = 0 := by
  induction list with
  | nil => rfl
  | cons first rest ih =>
      unfold addTo at unchanged
      unfold unreadIn
      by_cases same : entry.create = first.create
      · have notNewer : ¬ first.create < entry.create := by
          rw [same]
          exact UInt32.lt_irrefl _
        rw [if_pos same] at unchanged
        rw [if_neg notNewer, if_pos same]
        split
        · rfl
        · split
          · rfl
          · rename_i valid
            simp only [not_or, Bool.not_eq_true] at valid
            simp only [valid.1, valid.2, Bool.false_eq_true, if_false] at unchanged
            split at unchanged
            · cases unchanged
            · rename_i notLater
              rw [if_neg notLater]
      · rw [if_neg same] at unchanged
        by_cases newer : first.create < entry.create
        · rw [if_pos newer] at unchanged
          cases unchanged
        · rw [if_neg newer, Option.map_eq_none_iff] at unchanged
          rw [if_neg newer, if_neg same]
          exact ih unchanged

theorem addTo_cases (added : addTo entry list = some longer) :
    ∃ newer older first, list = newer ++ first :: older ∧
      (∀ other ∈ newer, entry.create < other.create) ∧
      ((first.create < entry.create ∧ longer = newer ++ entry :: first :: older) ∨
        (first.create = entry.create ∧
          longer = newer ++ { first with modified := entry.modified } :: older)) := by
  induction list generalizing longer with
  | nil => cases added
  | cons first rest ih =>
      unfold addTo at added
      by_cases same : entry.create = first.create
      · rw [if_pos same] at added
        split at added
        · cases added
        · by_cases later : (if time4IsInvalid first.modified then 0 else first.modified) <
              entry.modified
          · rw [if_pos later] at added
            cases added
            exact ⟨[], rest, first, rfl, by simp, Or.inr ⟨same.symm, rfl⟩⟩
          · rw [if_neg later] at added
            cases added
      · rw [if_neg same] at added
        by_cases newer : first.create < entry.create
        · rw [if_pos newer] at added
          cases added
          exact ⟨[], rest, first, rfl, by simp, Or.inl ⟨newer, rfl⟩⟩
        · rw [if_neg newer, Option.map_eq_some_iff] at added
          obtain ⟨tail, later, rfl⟩ := added
          obtain ⟨passed, older, next, whole, above, result⟩ := ih later
          have before : entry.create < first.create :=
            UInt32.lt_of_le_of_ne (UInt32.not_lt.mp newer) same
          refine ⟨first :: passed, older, next, by rw [whole]; rfl, ?_, ?_⟩
          · intro other member
            rcases List.mem_cons.mp member with rfl | inside
            · exact before
            · exact above other inside
          · rcases result with ⟨lower, rfl⟩ | ⟨equal, rfl⟩
            · exact Or.inl ⟨lower, rfl⟩
            · exact Or.inr ⟨equal, rfl⟩

end Added

section Answers

variable {entry first : BrcRec} {newer older list : List BrcRec} {g m : UInt32}

theorem unreadIn_eq_zero (above : ∀ other ∈ list, g < other.create) : unreadIn g m list = 0 := by
  have whole := @unreadIn_append_of_newer g m list [] above
  rw [List.append_nil] at whole
  exact whole

theorem unreadIn_insert (lower : first.create < entry.create) (other : g ≠ entry.create) :
    unreadIn g m (newer ++ entry :: first :: older) = unreadIn g m (newer ++ first :: older) := by
  by_cases reached : ∃ other ∈ newer, other.create ≤ g
  · rw [unreadIn_append_of_reached _ reached, unreadIn_append_of_reached _ reached]
  · have above : ∀ other ∈ newer, g < other.create := fun other member =>
      UInt32.not_le.mp fun le => reached ⟨other, member, le⟩
    rw [unreadIn_append_of_newer _ above, unreadIn_append_of_newer _ above, unreadIn]
    by_cases after : entry.create < g
    · rw [if_pos after, unreadIn_of_older _ (UInt32.lt_trans lower after)]
    · rw [if_neg after, if_neg other]

theorem unreadIn_modify (same : first.create = entry.create) (other : g ≠ entry.create) :
    unreadIn g m (newer ++ { first with modified := entry.modified } :: older) =
      unreadIn g m (newer ++ first :: older) := by
  induction newer with
  | nil =>
      simp only [List.nil_append, unreadIn, same, if_neg other]
  | cons head rest ih =>
      rw [List.cons_append, List.cons_append, unreadIn, unreadIn, ih]

theorem unreadIn_take (count : Nat) :
    unreadIn g m (list.take count) = unreadIn g m list ∨
      ((∀ other ∈ list.take count, g < other.create) ∧ unreadIn g m (list.take count) = 0) := by
  by_cases reached : ∃ other ∈ list.take count, other.create ≤ g
  · refine Or.inl ?_
    have whole := @unreadIn_append_of_reached g m (list.take count) (list.drop count) reached
    rw [List.take_append_drop] at whole
    exact whole.symm
  · have above : ∀ other ∈ list.take count, g < other.create := fun other member =>
      UInt32.not_le.mp fun le => reached ⟨other, member, le⟩
    exact Or.inr ⟨above, unreadIn_eq_zero above⟩

theorem unreadIn_self (higher : ∀ other ∈ newer, entry.create < other.create) :
    unreadIn entry.create entry.modified (newer ++ entry :: older) = 0 := by
  rw [unreadIn_append_of_newer _ higher, unreadIn, if_neg (UInt32.lt_irrefl _), if_pos rfl,
    if_neg (UInt32.lt_irrefl _)]
  split
  · rfl
  · split <;> rfl

end Answers

/-! ### Marking -/

/-- The answer about an article of the current board is the same, or the list was full, the
article is older than what remains of it, and is now read. -/
def Unaffected (session : Session) (brc after : Brc) (g m : UInt32) : Prop :=
  brcUnreadTime session after brc.currbid g m = brcUnreadTime session brc brc.currbid g m ∨
    (brc.list.length = brcMaxNum ∧ (∀ kept ∈ after.list, g < kept.create) ∧
      brcUnreadTime session after brc.currbid g m = 0)

structure MarksOnly (session : Session) (brc : Brc) (entry : BrcRec) : Prop where
  descending : StrictlyDescending (brcAddlist session entry brc).list
  bounded : (brcAddlist session entry brc).list.length ≤ brcMaxNum
  read : brcUnreadTime session (brcAddlist session entry brc) brc.currbid entry.create
    entry.modified = 0
  others : ∀ g m, g ≠ entry.create → Unaffected session brc (brcAddlist session entry brc) g m

section Marking

variable {session : Session} {brc : Brc} {entry : BrcRec} {list longer : List BrcRec}

theorem addTo_spec (descending : StrictlyDescending list) (added : addTo entry list = some longer) :
    StrictlyDescending longer ∧ longer.length ≤ list.length + 1 ∧
      unreadIn entry.create entry.modified longer = 0 ∧
      ∀ g m, g ≠ entry.create → unreadIn g m longer = unreadIn g m list := by
  obtain ⟨newer, older, first, rfl, higher, result⟩ := addTo_cases added
  unfold StrictlyDescending at descending ⊢
  rw [List.pairwise_append, List.pairwise_cons] at descending
  obtain ⟨above, ⟨below, rest⟩, across⟩ := descending
  rcases result with ⟨lower, rfl⟩ | ⟨same, rfl⟩
  · refine ⟨?_, ?_, unreadIn_self higher, fun g m other => unreadIn_insert lower other⟩
    · rw [List.pairwise_append, List.pairwise_cons, List.pairwise_cons]
      refine ⟨above, ⟨?_, below, rest⟩, ?_⟩
      · intro other member
        rcases List.mem_cons.mp member with rfl | inside
        · exact lower
        · exact UInt32.lt_trans (below other inside) lower
      · intro other member next inside
        rcases List.mem_cons.mp inside with rfl | inside
        · exact higher other member
        · exact across other member next inside
    · simp only [List.length_append, List.length_cons]
      omega
  · refine ⟨?_, ?_, ?_, fun g m other => unreadIn_modify same other⟩
    · rw [List.pairwise_append, List.pairwise_cons]
      refine ⟨above, ⟨below, rest⟩, ?_⟩
      intro other member next inside
      rcases List.mem_cons.mp inside with rfl | inside
      · exact across other member first List.mem_cons_self
      · exact across other member next (List.mem_cons_of_mem first inside)
    · simp only [List.length_append, List.length_cons]
      omega
    · have whole : ({ first with modified := entry.modified } : BrcRec) = entry := by
        rw [same]
      rw [whole]
      exact unreadIn_self higher

theorem brcAddlist_held (user : session.userlevel = true)
    (later : session.expireTime < entry.create) (held : brc.list ≠ []) :
    ((brcAddlist session entry brc).list = brc.list ∧
        unreadIn entry.create entry.modified brc.list = 0) ∨
      ∃ longer, addTo entry brc.list = some longer ∧
        (brcAddlist session entry brc).list = longer.take brcMaxNum := by
  unfold brcAddlist
  rw [user, Bool.not_true, if_neg Bool.false_ne_true, if_neg (UInt32.not_le.mpr later)]
  -- Past the rule for a list with one entry, the list is searched.
  have searched : ∀ after : Brc, ((addTo entry brc.list).elim brc
      fun list => { brc with list := list.take brcMaxNum, changed := true }) = after →
      (after.list = brc.list ∧ unreadIn entry.create entry.modified brc.list = 0) ∨
        ∃ longer, addTo entry brc.list = some longer ∧ after.list = longer.take brcMaxNum := by
    rintro after rfl
    cases added : addTo entry brc.list with
    | none => exact Or.inl ⟨rfl, unreadIn_addTo_none added⟩
    | some longer => exact Or.inr ⟨longer, rfl, rfl⟩
  split
  · rename_i none
    exact absurd none held
  · rename_i only single
    rw [single] at searched ⊢
    by_cases before : entry.create < only.create
    · rw [if_pos before]
      refine Or.inl ⟨single, unreadIn_eq_zero ?_⟩
      intro other member
      rw [List.mem_singleton.mp member]
      exact before
    · rw [if_neg before]
      exact searched _ (by cases addTo entry [only] <;> rfl)
  · exact searched _ (by cases addTo entry brc.list <;> rfl)

theorem brcUnreadTime_listed {brc : Brc} {bid : UInt32} (board : brc.currbid ≠ 0)
    (current : bid = brc.currbid) {g m : UInt32} (later : session.expireTime < g) :
    brcUnreadTime session brc bid g m = if brc.list = [] then 1 else unreadIn g m brc.list := by
  unfold brcUnreadTime
  simp only [if_neg (UInt32.not_le.mpr later), if_pos (And.intro board current)]

theorem brcAddlist_currbid : (brcAddlist session entry brc).currbid = brc.currbid := by
  unfold brcAddlist
  split
  · rfl
  · split
    · rfl
    · split
      · rfl
      · split
        · rfl
        · split <;> rfl
      · split <;> rfl

theorem brcUnreadTime_expired {g m : UInt32} (before : g ≤ session.expireTime) (bid : UInt32) :
    brcUnreadTime session brc bid g m = 0 := by
  unfold brcUnreadTime
  rw [if_pos before]

theorem unaffected_of_recent {after : Brc} {g m : UInt32}
    (recent : session.expireTime < g → Unaffected session brc after g m) :
    Unaffected session brc after g m := by
  by_cases expired : g ≤ session.expireTime
  · refine Or.inl ?_
    rw [brcUnreadTime_expired expired, brcUnreadTime_expired expired]
  · exact recent (UInt32.not_le.mp expired)

theorem addTo_ne_nil (added : addTo entry list = some longer) : longer.take brcMaxNum ≠ [] := by
  intro none
  rcases List.take_eq_nil_iff.mp none with zero | rfl
  · exact absurd zero (by decide)
  · obtain ⟨newer, older, first, _, _, ⟨_, whole⟩ | ⟨_, whole⟩⟩ := addTo_cases added
    · simp at whole
    · simp at whole

theorem marksOnly_of_held (board : brc.currbid ≠ 0) (descending : StrictlyDescending brc.list)
    (bounded : brc.list.length ≤ brcMaxNum) (later : session.expireTime < entry.create)
    (user : session.userlevel = true) (held : brc.list ≠ []) : MarksOnly session brc entry := by
  have current : (brcAddlist session entry brc).currbid = brc.currbid := brcAddlist_currbid
  have onBoard : (brcAddlist session entry brc).currbid ≠ 0 := current ▸ board
  rcases brcAddlist_held user later held with ⟨same, read⟩ | ⟨longer, added, cut⟩
  · refine ⟨same ▸ descending, same ▸ bounded, ?_, fun g m _ => unaffected_of_recent fun recent => ?_⟩
    · rw [brcUnreadTime_listed onBoard current.symm later, same, if_neg held, read]
    · refine Or.inl ?_
      rw [brcUnreadTime_listed onBoard current.symm recent,
        brcUnreadTime_listed board rfl recent, same]
  · obtain ⟨sorted, size, read, others⟩ := addTo_spec descending added
    have some := addTo_ne_nil added
    refine ⟨?_, ?_, ?_, fun g m other => unaffected_of_recent fun recent => ?_⟩
    · rw [cut]
      exact sorted.sublist (List.take_sublist _ _)
    · rw [cut, List.length_take]
      exact Nat.min_le_left _ _
    · rw [brcUnreadTime_listed onBoard current.symm later, cut, if_neg some]
      rcases @unreadIn_take longer entry.create entry.modified brcMaxNum with whole | ⟨_, zero⟩
      · rw [whole, read]
      · exact zero
    · unfold Unaffected
      rw [brcUnreadTime_listed onBoard current.symm recent,
        brcUnreadTime_listed board rfl recent, cut, if_neg some, if_neg held]
      rcases @unreadIn_take longer g m brcMaxNum with whole | ⟨above, zero⟩
      · rw [whole]
        exact Or.inl (others g m other)
      · by_cases full : brc.list.length = brcMaxNum
        · exact Or.inr ⟨full, above, zero⟩
        · have fits : longer.take brcMaxNum = longer := List.take_of_length_le (by omega)
          rw [fits]
          exact Or.inl (others g m other)

/-- Where `brc_addlist` marks one article: the user is no guest, and the list has an entry
or nothing lies between the expiry time and the article; a guest's call does nothing. -/
def CanMark (session : Session) (brc : Brc) (entry : BrcRec) : Prop :=
  if session.userlevel then
    brc.list ≠ [] ∨ entry.create.toNat = session.expireTime.toNat + 1
  else brcUnreadTime session brc brc.currbid entry.create entry.modified = 0

theorem brcAddlist_guest (guest : session.userlevel = false) :
    brcAddlist session entry brc = brc := by
  unfold brcAddlist
  rw [guest]
  rfl

theorem brcAddlist_empty (user : session.userlevel = true)
    (later : session.expireTime < entry.create) (empty : brc.list = []) :
    (brcAddlist session entry brc).list = [entry] := by
  unfold brcAddlist
  rw [user, Bool.not_true, if_neg Bool.false_ne_true, if_neg (UInt32.not_le.mpr later), empty]

theorem marksOnly_iff (board : brc.currbid ≠ 0) (descending : StrictlyDescending brc.list)
    (bounded : brc.list.length ≤ brcMaxNum) (later : session.expireTime < entry.create) :
    MarksOnly session brc entry ↔ CanMark session brc entry := by
  unfold CanMark
  cases user : session.userlevel with
  | false =>
      have same := @brcAddlist_guest session brc entry user
      constructor
      · intro marks
        have read := marks.read
        rw [same] at read
        exact read
      · intro read
        constructor
        · rw [same]
          exact descending
        · rw [same]
          exact bounded
        · rw [same]
          exact read
        · intro g m _other
          rw [same]
          exact Or.inl rfl
  | true =>
      simp only [if_true]
      by_cases held : brc.list = []
      · have single := brcAddlist_empty user later held
        have current : (brcAddlist session entry brc).currbid = brc.currbid := brcAddlist_currbid
        have onBoard : (brcAddlist session entry brc).currbid ≠ 0 := current ▸ board
        have before : ∀ {g m}, session.expireTime < g →
            brcUnreadTime session brc brc.currbid g m = 1 := by
          intro g m recent
          rw [brcUnreadTime_listed board rfl recent, if_pos held]
        have after : ∀ {g m}, session.expireTime < g →
            brcUnreadTime session (brcAddlist session entry brc) brc.currbid g m =
              unreadIn g m [entry] := by
          intro g m recent
          rw [brcUnreadTime_listed onBoard current.symm recent, single,
            if_neg (List.cons_ne_nil _ _)]
        constructor
        · intro marks
          refine Or.inr ?_
          by_contra gap
          -- The article right after the expiry time becomes read.
          have bound := UInt32.lt_iff_toNat_lt.mp later
          have small := entry.create.toNat_lt
          have next : (session.expireTime + 1).toNat = session.expireTime.toNat + 1 := by
            rw [UInt32.toNat_add]
            exact Nat.mod_eq_of_lt (by change _ + 1 < 2 ^ 32; omega)
          have recent : session.expireTime < session.expireTime + 1 := by
            rw [UInt32.lt_iff_toNat_lt, next]
            exact Nat.lt_succ_self _
          have below : session.expireTime + 1 < entry.create := by
            rw [UInt32.lt_iff_toNat_lt, next]
            omega
          rcases marks.others (session.expireTime + 1) 0 (UInt32.ne_of_lt below) with same | full
          · rw [before recent, after recent, unreadIn_eq_zero] at same
            · cases same
            · intro other member
              rw [List.mem_singleton.mp member]
              exact below
          · rw [held] at full
            exact absurd full.1 (by decide)
        · rintro (some | next)
          · exact absurd held some
          · constructor
            · rw [single]
              exact List.pairwise_singleton _ _
            · rw [single]
              exact Nat.le_of_ble_eq_true rfl
            · rw [after later]
              exact @unreadIn_self entry [] [] nofun
            · intro g m other
              refine unaffected_of_recent fun recent => Or.inl ?_
              have above : entry.create < g := by
                apply UInt32.lt_of_le_of_ne
                · rw [UInt32.le_iff_toNat_le, next]
                  exact UInt32.lt_iff_toNat_lt.mp recent
                · exact other.symm
              rw [before recent, after recent, unreadIn, if_pos above]
      · exact ⟨fun _ => Or.inl held,
          fun _ => marksOnly_of_held board descending bounded later user held⟩

end Marking

/-! ### Searching for a read article -/

def Beyond (forward : Bool) (ftime time : UInt32) : Prop :=
  if forward then ftime < time else time < ftime

/-- The result of a search among the entries of articles; the entry with the time 1 stands
for a board without a record. -/
def ReadSearch.Exact (list : List BrcRec) (ftime : UInt32) (forward : Bool) : ReadSearch → Prop
  | .found result =>
      (∃ entry ∈ list, entry.create = result) ∧ result ≠ 1 ∧ Beyond forward ftime result ∧
        ∀ entry ∈ list, entry.create ≠ 1 → Beyond forward ftime entry.create →
          ¬ Beyond forward entry.create result
  | _ => ∀ entry ∈ list, entry.create ≠ 1 → ¬ Beyond forward ftime entry.create

section Searching

variable {ftime : UInt32} {list : List BrcRec}

theorem searchReadFrom_forward (descending : StrictlyDescending list) (newer : Option BrcRec) :
    searchReadFrom ftime true newer list =
      returnNewer ((list.filter fun entry => ftime < entry.create).getLast?.or newer) := by
  induction list generalizing newer with
  | nil => rfl
  | cons first rest ih =>
      obtain ⟨below, sorted⟩ := List.pairwise_cons.mp descending
      unfold searchReadFrom
      by_cases above : ftime < first.create
      · rw [if_neg (UInt32.not_lt.mpr (UInt32.le_of_lt above)), if_neg (UInt32.ne_of_lt above),
          ih sorted, List.filter_cons_of_pos (by simpa using above)]
        cases rest.filter (fun entry => ftime < entry.create) with
        | nil => rfl
        | cons next others => rw [List.getLast?_cons_cons]; rfl
      · have none : (first :: rest).filter (fun entry => ftime < entry.create) = [] := by
          rw [List.filter_eq_nil_iff]
          intro entry member newer
          rcases List.mem_cons.mp member with rfl | inside
          · exact above (by simpa using newer)
          · exact above (UInt32.lt_trans (by simpa using newer) (below entry inside))
        rw [none]
        split
        · rfl
        · split
          · rfl
          · rename_i notLower other
            exact absurd (UInt32.lt_of_le_of_ne (UInt32.not_lt.mp notLower) other) above

theorem searchReadFrom_backward (descending : StrictlyDescending list) (newer : Option BrcRec) :
    searchReadFrom ftime false newer list =
      returnNewer (list.find? fun entry => entry.create < ftime) := by
  induction list generalizing newer with
  | nil => rfl
  | cons first rest ih =>
      obtain ⟨below, sorted⟩ := List.pairwise_cons.mp descending
      unfold searchReadFrom
      by_cases lower : first.create < ftime
      · rw [if_pos lower, List.find?_cons_of_pos (by simpa using lower)]
        rfl
      · rw [if_neg lower, List.find?_cons_of_neg (by simpa using lower)]
        by_cases same : ftime = first.create
        · rw [if_pos same]
          cases rest with
          | nil => rfl
          | cons older others =>
              have next : older.create < ftime := same ▸ below older List.mem_cons_self
              rw [List.find?_cons_of_pos (by simpa using next)]
              rfl
        · rw [if_neg same]
          exact ih sorted (some first)

theorem find_nearest {entry other : BrcRec} (descending : StrictlyDescending list)
    (found : list.find? (fun entry => entry.create < ftime) = some entry) (member : other ∈ list)
    (older : other.create < ftime) : other.create ≤ entry.create := by
  obtain ⟨_older, before, after, rfl, newer⟩ := List.find?_eq_some_iff_append.mp found
  obtain ⟨_sorted, sorted, _across⟩ := List.pairwise_append.mp descending
  rcases List.mem_append.mp member with first | rest
  · exact absurd older (by simpa using newer other first)
  · rcases List.mem_cons.mp rest with rfl | last
    · exact UInt32.le_refl _
    · exact UInt32.le_of_lt ((List.pairwise_cons.mp sorted).1 other last)

theorem getLast_nearest {entry other : BrcRec} (descending : StrictlyDescending list)
    (last : list.getLast? = some entry) (member : other ∈ list) :
    entry.create ≤ other.create := by
  obtain ⟨before, rfl⟩ := List.getLast?_eq_some_iff.mp last
  obtain ⟨_sorted, _sorted, across⟩ := List.pairwise_append.mp descending
  rcases List.mem_append.mp member with first | rest
  · exact UInt32.le_of_lt (across other first entry List.mem_cons_self)
  · rw [List.mem_singleton.mp rest]

/-- The entry with the time 1 is the nearest that is older, and there are others. -/
def MeetsSentinel (list : List BrcRec) (ftime : UInt32) (forward : Bool) : Prop :=
  forward = false ∧ 1 < ftime ∧ (∃ entry ∈ list, entry.create = 1) ∧
    (∃ entry ∈ list, entry.create ≠ 1) ∧ ∀ entry ∈ list, 1 < entry.create → ftime ≤ entry.create

theorem exact_forward (descending : StrictlyDescending list) (positive : 0 < ftime) :
    (searchReadFrom ftime true none list).Exact list ftime true := by
  rw [searchReadFrom_forward descending, Option.or_none]
  cases last : (list.filter fun entry => ftime < entry.create).getLast? with
  | none =>
      intro entry member _article newer
      have empty := List.filter_eq_nil_iff.mp (List.getLast?_eq_none_iff.mp last)
      exact empty entry member (decide_eq_true (show ftime < entry.create from newer))
  | some entry =>
      have inside := List.mem_filter.mp (List.mem_of_getLast? last)
      have newer : ftime < entry.create := by simpa using inside.2
      refine ⟨⟨entry, inside.1, rfl⟩, ?_, newer, ?_⟩
      · intro one
        rw [one] at newer
        rw [UInt32.lt_iff_toNat_lt] at newer positive
        exact absurd (Nat.lt_of_le_of_lt positive newer) (by decide)
      · intro other member _article newer nearer
        have kept : other ∈ list.filter fun entry => ftime < entry.create :=
          List.mem_filter.mpr ⟨member, decide_eq_true (show ftime < other.create from newer)⟩
        exact UInt32.not_lt.mpr
          (getLast_nearest (descending.sublist List.filter_sublist) last kept) nearer

theorem exact_backward_iff (descending : StrictlyDescending list)
    (some : ∃ entry ∈ list, entry.create ≠ 1) :
    (searchReadFrom ftime false none list).Exact list ftime false ↔
      ¬ MeetsSentinel list ftime false := by
  rw [searchReadFrom_backward descending]
  cases found : list.find? fun entry => entry.create < ftime with
  | none =>
      have none : ∀ entry ∈ list, ¬ entry.create < ftime := fun entry member older =>
        List.find?_eq_none.mp found entry member (decide_eq_true older)
      refine ⟨?_, fun _ entry member _article => none entry member⟩
      rintro _exact ⟨_, late, ⟨one, member, isOne⟩, _⟩
      exact none one member (isOne ▸ late)
  | some entry =>
      have older : entry.create < ftime := by simpa using List.find?_some found
      have member := List.mem_of_find?_eq_some found
      constructor
      · rintro ⟨_entry, article, _older, _nearest⟩ ⟨_, late, ⟨one, oneMember, isOne⟩, _, others⟩
        have above := find_nearest descending found oneMember (isOne ▸ late)
        rw [isOne] at above
        have larger := others entry member (UInt32.lt_of_le_of_ne above fun same => article same.symm)
        exact UInt32.not_lt.mpr larger older
      · intro free
        refine ⟨⟨entry, member, rfl⟩, ?_, older, ?_⟩
        · intro one
          change entry.create = 1 at one
          apply free
          refine ⟨rfl, one ▸ older, ⟨entry, member, one⟩, some, ?_⟩
          intro other otherMember large
          by_contra less
          have nearest := find_nearest descending found otherMember (UInt32.not_le.mp less)
          rw [one] at nearest
          exact UInt32.not_lt.mpr nearest large
        · intro other otherMember _article otherOlder nearer
          exact UInt32.not_lt.mpr (find_nearest descending found otherMember otherOlder) nearer

theorem brcSearchRead_searches {brc : Brc} {bid : UInt32} {forward : Bool}
    (some : ∃ entry ∈ brcListOf brc bid, entry.create ≠ 1) :
    brcSearchRead brc bid ftime forward =
      searchReadFrom ftime forward none (brcListOf brc bid) := by
  obtain ⟨entry, member, article⟩ := some
  unfold brcSearchRead
  generalize brcListOf brc bid = list at member ⊢
  split
  · cases member
  · rw [List.mem_singleton] at member
    rw [if_neg (member ▸ article)]
  · rfl

theorem brcSearchRead_noRecord {brc : Brc} {bid : UInt32} {forward : Bool}
    (descending : StrictlyDescending (brcListOf brc bid))
    (sentinels : ∀ entry ∈ brcListOf brc bid, entry.create = 1) :
    brcSearchRead brc bid ftime forward = .noRecord := by
  unfold brcSearchRead
  generalize brcListOf brc bid = list at descending sentinels ⊢
  match list, descending, sentinels with
  | [], _, _ => rfl
  | [only], _, sentinels => exact if_pos (sentinels only List.mem_cons_self)
  | first :: second :: rest, descending, sentinels =>
      have below := (List.pairwise_cons.mp descending).1 second List.mem_cons_self
      rw [sentinels first List.mem_cons_self,
        sentinels second (List.mem_cons_of_mem _ List.mem_cons_self)] at below
      exact absurd below (UInt32.lt_irrefl _)

theorem brcSearchRead_exact_iff {brc : Brc} {bid : UInt32}
    (descending : StrictlyDescending (brcListOf brc bid)) (positive : 0 < ftime) (forward : Bool) :
    (brcSearchRead brc bid ftime forward).Exact (brcListOf brc bid) ftime forward ↔
      ¬ MeetsSentinel (brcListOf brc bid) ftime forward := by
  by_cases some : ∃ entry ∈ brcListOf brc bid, entry.create ≠ 1
  · rw [brcSearchRead_searches some]
    cases forward with
    | true => exact ⟨fun _ meets => Bool.noConfusion meets.1,
        fun _ => exact_forward descending positive⟩
    | false => exact exact_backward_iff descending some
  · have sentinels : ∀ entry ∈ brcListOf brc bid, entry.create = 1 := fun entry member =>
      by_contra fun article => some ⟨entry, member, article⟩
    rw [brcSearchRead_noRecord descending sentinels]
    exact ⟨fun _ meets => some meets.2.2.2.1,
      fun _ entry member article => absurd (sentinels entry member) article⟩

end Searching

/-! ### One article -/

/-- On a board with a list in its order, an article after the expiry time is the only one that
is marked, and a search finds the nearest article with an entry, exactly where the list has
an entry and the search does not end at the one with the time 1. -/
theorem marks_one_iff {session : Session} {brc : Brc} {entry : BrcRec} {bid : UInt32}
    (board : brc.currbid ≠ 0) (descending : StrictlyDescending brc.list)
    (bounded : brc.list.length ≤ brcMaxNum) (later : session.expireTime < entry.create)
    (searched : StrictlyDescending (brcListOf brc bid)) (forward : Bool) :
    (MarksOnly session brc entry ↔ CanMark session brc entry) ∧
    ((brcSearchRead brc bid entry.create forward).Exact (brcListOf brc bid) entry.create forward ↔
      ¬ MeetsSentinel (brcListOf brc bid) entry.create forward) := by
  have positive : 0 < entry.create := by
    rw [UInt32.lt_iff_toNat_lt] at later ⊢
    exact Nat.lt_of_le_of_lt (Nat.zero_le _) later
  exact ⟨marksOnly_iff board descending bounded later,
    brcSearchRead_exact_iff searched positive forward⟩

def visitedBoard : Brc where
  currbid := 3
  list := [⟨500, 500⟩, ⟨300, 0⟩, ⟨1, 0⟩]

theorem marks_one_visited :
    let session : Session := { expireTime := 100 }
    MarksOnly session visitedBoard ⟨400, 450⟩ ∧
      (brcSearchRead visitedBoard 3 400 false).Exact visitedBoard.list 400 false ∧
      (brcAddlist session ⟨400, 450⟩ visitedBoard).list =
        [⟨500, 500⟩, ⟨400, 450⟩, ⟨300, 0⟩, ⟨1, 0⟩] ∧
      brcSearchRead visitedBoard 3 400 false = .found 300 := by
  have sorted : StrictlyDescending visitedBoard.list := by
    unfold StrictlyDescending visitedBoard
    decide
  have both := @marks_one_iff { expireTime := 100 } visitedBoard ⟨400, 450⟩ 3 (by decide) sorted
    (by decide) (by decide) sorted false
  refine ⟨both.1.mpr (Or.inl (List.cons_ne_nil _ _)), both.2.mpr ?_, by decide, by decide⟩
  rintro ⟨_, _, _, _, others⟩
  exact absurd (others ⟨300, 0⟩ (by decide) (by decide)) (by decide)

/-- The first entry of an empty list makes an older article read, and a search backwards from
the oldest entry returns the time 1. -/
theorem marks_others :
    let session : Session := { expireTime := 100 }
    let empty : Brc := { currbid := 3 }
    let visited : Brc := { currbid := 3, list := [⟨500, 500⟩, ⟨1, 0⟩] }
    (brcUnreadTime session empty 3 150 0 = 1 ∧
      brcUnreadTime session (brcAddlist session ⟨200, 200⟩ empty) 3 150 0 = 0 ∧
      ¬ MarksOnly session empty ⟨200, 200⟩) ∧
    (brcSearchRead visited 3 500 false = .found 1 ∧
      ¬ (brcSearchRead visited 3 500 false).Exact visited.list 500 false) := by
  refine ⟨⟨by decide, by decide, ?_⟩, by decide, ?_⟩
  · intro marks
    rcases marks.others 150 0 (by decide) with same | full
    · exact absurd same (by decide)
    · exact absurd full.1 (by decide)
  · rintro ⟨_entry, article, _rest⟩
    exact article rfl

end Pttbbs.Mbbsd.ReadMarks
