/-
What friend.svc publishes for a session.

The tables of sessions and the relations are kept in step, and a user whose entries
may change is always among the users whose entries are written again.
-/

import Pttbbs.FriendSvc.FriendOnline
import Pttbbs.Lib.Runs

namespace Pttbbs.FriendSvc

open Pttbbs.Lib

/-! ### What the entries should say -/

/-- What a user's own lists say about a peer. -/
def Lists.stat (lists : Lists) (peer : Int) (friend reject super : Nat) : Nat :=
  if peer ∈ lists.friends then
    if peer ∈ lists.rejects then friend ||| super else friend
  else if peer ∈ lists.rejects then reject else 0

def relation (lists : Int → Lists) (uid peer : Int) : Nat :=
  (lists uid).stat peer friendBitIFH friendBitIRH friendBitISH |||
    (lists peer).stat uid friendBitHFM friendBitHRM friendBitHSM

namespace Service

def Online (service : Service) (uid sid : Int) : Prop :=
  ∃ pid session, service.onlineSessions pid = some session ∧ session.uid = uid ∧
    session.sid = sid ∧ 0 < uid ∧ 0 ≤ sid

def Expected (service : Service) (lists : Int → Lists) (uid : Int) (entry : SidEntry) : Prop :=
  service.Online entry.uid entry.sid ∧ entry.stat = relation lists uid entry.uid ∧ entry.stat ≠ 0

/-- The entries are those expected, by slot; if they are too many, those of the least
priority are left out. -/
def Shows (config : Config) (service : Service) (lists : Int → Lists) (uid : Int)
    (entries : List Nat) : Prop :=
  ∃ kept : List SidEntry,
    entries.map unpackFriendOnline = kept.map (fun entry =>
      (entry.stat, uidTag (if config.enableUIDTag then entry.uid else 0), entry.sid.toNat)) ∧
    kept.Pairwise (fun left right => left.sid < right.sid) ∧
    (∀ entry ∈ kept, service.Expected lists uid entry) ∧ kept.length ≤ maxFriendOnline ∧
    ((∀ entry, service.Expected lists uid entry → entry ∈ kept) ∨
      kept.length = maxFriendOnline ∧
        ∀ entry, service.Expected lists uid entry → entry ∉ kept →
          ∀ other ∈ kept, friendStatPriority entry.stat ≤ friendStatPriority other.stat)

structure Published (config : Config) (service : Service) (lists : Int → Lists) : Prop where
  slots : ∀ pid other session another, service.onlineSessions pid = some session →
    service.onlineSessions other = some another → 0 ≤ session.sid →
      session.sid = another.sid → pid = other
  shows : ∀ uid sid, service.Online uid sid →
    service.Shows config lists uid (service.sessionFriendsCache sid)

end Service

/-! ### Packing -/

theorem stat_cases (lists : Lists) (peer : Int) (friend reject super : Nat) :
    lists.stat peer friend reject super ∈ [friend ||| super, friend, reject, 0] := by
  unfold Lists.stat
  split
  · split <;> simp
  · split <;> simp

def relationStats : List Nat :=
  [friendBitIFH ||| friendBitISH, friendBitIFH, friendBitIRH, 0].flatMap fun mine =>
    [friendBitHFM ||| friendBitHSM, friendBitHFM, friendBitHRM, 0].map fun his => mine ||| his

theorem relation_mem (lists : Int → Lists) (uid peer : Int) :
    relation lists uid peer ∈ relationStats := by
  unfold relation relationStats
  rw [List.mem_flatMap]
  refine ⟨_, stat_cases (lists uid) peer friendBitIFH friendBitIRH friendBitISH, ?_⟩
  rw [List.mem_map]
  exact ⟨_, stat_cases (lists peer) uid friendBitHFM friendBitHRM friendBitHSM, rfl⟩

theorem rawFriendStat_le : ∀ stat ∈ relationStats, rawFriendStat stat ≤ friendOnlineStatMask := by
  decide

theorem normalizeFriendStat_rawFriendStat :
    ∀ stat ∈ relationStats, normalizeFriendStat (rawFriendStat stat) = stat := by
  decide

theorem uidTag_le (uid : Int) : uidTag uid ≤ friendOnlineUIDMask := by
  unfold uidTag
  split
  · exact Nat.and_le_right
  · exact Nat.zero_le _

theorem uidTag_pos {uid : Int} (positive : 0 < uid) : 0 < uidTag uid := by
  unfold uidTag
  rw [if_pos positive]
  have small : uid.toNat % 2 ^ 32 % friendOnlineUIDMask + 1 < 2 ^ 6 := by
    have := Nat.mod_lt (uid.toNat % 2 ^ 32) (show 0 < friendOnlineUIDMask by decide)
    change _ + 1 < 64
    change _ < 63 at this
    omega
  change 0 < _ &&& (2 ^ 6 - 1)
  rw [Nat.and_two_pow_sub_one_eq_mod, Nat.mod_eq_of_lt small]
  exact Nat.succ_pos _

theorem fields_eq {stat tag slot : Nat} (tagSmall : tag < 2 ^ 6) (slotSmall : slot < 2 ^ 18) :
    stat <<< 24 ||| tag <<< 18 ||| slot = stat * 2 ^ 24 + (tag * 2 ^ 18 + slot) := by
  have low : tag <<< 18 ||| slot = tag * 2 ^ 18 + slot := by
    rw [← Nat.shiftLeft_add_eq_or_of_lt slotSmall, Nat.shiftLeft_eq]
  have lowSmall : tag * 2 ^ 18 + slot < 2 ^ 24 := by omega
  rw [Nat.or_assoc, low, ← Nat.shiftLeft_add_eq_or_of_lt lowSmall, Nat.shiftLeft_eq]

theorem packFriendOnline_spec {stat : Nat} {uid slot : Int} (known : stat ∈ relationStats)
    (user : 0 ≤ uid) (low : 0 ≤ slot) (high : slot ≤ friendOnlineSlotMask) :
    ∃ packed, packFriendOnline stat uid slot = some packed ∧
      unpackFriendOnline packed = (stat, uidTag uid, slot.toNat) := by
  have raw := rawFriendStat_le stat known
  have tag := uidTag_le uid
  have slotSmall : slot.toNat < 2 ^ 18 := by
    change slot ≤ ((2 ^ 18 - 1 : Nat) : Int) at high
    omega
  have tagSmall : uidTag uid < 2 ^ 6 := by
    change uidTag uid ≤ 63 at tag
    omega
  have rawSmall : rawFriendStat stat < 2 ^ 8 := by
    change rawFriendStat stat ≤ 255 at raw
    omega
  unfold packFriendOnline
  rw [if_neg (by omega), if_neg (by omega), if_neg (by omega), if_neg]
  · refine ⟨_, rfl, ?_⟩
    have rawMask : rawFriendStat stat &&& friendOnlineStatMask = rawFriendStat stat := by
      change _ &&& (2 ^ 8 - 1) = _
      rw [Nat.and_two_pow_sub_one_eq_mod, Nat.mod_eq_of_lt rawSmall]
    have slotMask : slot.toNat &&& friendOnlineSlotMask = slot.toNat := by
      change _ &&& (2 ^ 18 - 1) = _
      rw [Nat.and_two_pow_sub_one_eq_mod, Nat.mod_eq_of_lt slotSmall]
    rw [rawMask, slotMask]
    change unpackFriendOnline
      (rawFriendStat stat <<< 24 ||| uidTag uid <<< 18 ||| slot.toNat) = _
    rw [fields_eq tagSmall slotSmall]
    unfold unpackFriendOnline
    refine Prod.ext ?_ (Prod.ext ?_ ?_)
    · change normalizeFriendStat (_ >>> 24 &&& (2 ^ 8 - 1)) = stat
      rw [Nat.and_two_pow_sub_one_eq_mod, Nat.shiftRight_eq_div_pow]
      have high : (rawFriendStat stat * 2 ^ 24 + (uidTag uid * 2 ^ 18 + slot.toNat)) / 2 ^ 24 %
          2 ^ 8 = rawFriendStat stat := by omega
      rw [high, normalizeFriendStat_rawFriendStat stat known]
    · change _ >>> 18 &&& (2 ^ 6 - 1) = uidTag uid
      rw [Nat.and_two_pow_sub_one_eq_mod, Nat.shiftRight_eq_div_pow]
      omega
    · change _ &&& (2 ^ 18 - 1) = slot.toNat
      rw [Nat.and_two_pow_sub_one_eq_mod]
      omega
  · rintro ⟨positive, zero | large⟩
    · exact absurd zero (Nat.pos_iff_ne_zero.mp (uidTag_pos positive))
    · omega

namespace Service

/-! ### The tables -/

structure Linked (service : Service) : Prop where
  pid_eq : ∀ pid session, service.onlineSessions pid = some session → session.pid = pid
  inRange : ∀ pid session, service.onlineSessions pid = some session →
    session.sid ≤ friendOnlineSlotMask
  slot_iff : ∀ sid pid, service.sidToPID sid = some pid ↔
    ∃ session, service.onlineSessions pid = some session ∧ session.sid = sid ∧ 0 ≤ sid
  online_iff : ∀ uid sid, sid ∈ service.uidToSIDs uid ↔ service.Online uid sid
  friends_iff : ∀ uid peer, peer ∈ service.userFriends uid ↔ uid ∈ service.revFriends peer
  rejects_iff : ∀ uid peer, peer ∈ service.userRejects uid ↔ uid ∈ service.revRejects peer
  offline : ∀ uid, service.uidToSIDs uid = ∅ →
    service.userFriends uid = ∅ ∧ service.userRejects uid = ∅
  lists : ∀ uid, service.loadedOnline uid = ⟨service.userFriends uid, service.userRejects uid⟩

namespace Linked

variable {service : Service} (linked : Linked service)

include linked

theorem session_unique {pid other : Int} {session another : SubscriberSession}
    (one : service.onlineSessions pid = some session)
    (two : service.onlineSessions other = some another) (slot : 0 ≤ session.sid)
    (same : session.sid = another.sid) : pid = other := by
  have first := (linked.slot_iff session.sid pid).mpr ⟨session, one, rfl, slot⟩
  have second := (linked.slot_iff session.sid other).mpr ⟨another, two, same.symm, slot⟩
  rw [first] at second
  exact Option.some.inj second

theorem uid_unique {uid other sid : Int} (one : service.Online uid sid)
    (two : service.Online other sid) : uid = other := by
  obtain ⟨pid, session, found, rfl, rfl, _, slot⟩ := one
  obtain ⟨pid', session', found', rfl, same, _, _⟩ := two
  obtain rfl := linked.session_unique found found' slot same.symm
  rw [found] at found'
  cases found'
  rfl

theorem peerStat_eq (uid peer : Int) :
    service.peerStat uid peer = relation service.loadedOnline uid peer := by
  unfold peerStat relation Lists.stat
  rw [linked.lists uid, linked.lists peer]
  simp only [← linked.friends_iff peer uid, ← linked.rejects_iff peer uid]
  by_cases friend : peer ∈ service.userFriends uid <;>
    by_cases reject : peer ∈ service.userRejects uid <;>
    by_cases hisFriend : uid ∈ service.userFriends peer <;>
    by_cases hisReject : uid ∈ service.userRejects peer <;>
    simp [friend, reject, hisFriend, hisReject] <;> decide

end Linked

theorem relation_eq_zero {lists : Int → Lists} {uid peer : Int} :
    relation lists uid peer = 0 ↔
      (peer ∉ (lists uid).friends ∧ peer ∉ (lists uid).rejects) ∧
        uid ∉ (lists peer).friends ∧ uid ∉ (lists peer).rejects := by
  unfold relation Lists.stat
  by_cases friend : peer ∈ (lists uid).friends <;>
    by_cases reject : peer ∈ (lists uid).rejects <;>
    by_cases hisFriend : uid ∈ (lists peer).friends <;>
    by_cases hisReject : uid ∈ (lists peer).rejects <;>
    simp [friend, reject, hisFriend, hisReject] <;> decide

namespace Linked

variable {service : Service} (linked : Linked service)

include linked

theorem relation_eq_zero_of_not_related {uid peer : Int} (apart : uid ∉ service.related peer) :
    relation service.loadedOnline uid peer = 0 := by
  rw [relation_eq_zero, linked.lists uid, linked.lists peer]
  unfold related at apart
  simp only [Finset.mem_insert, Finset.mem_union, not_or] at apart
  obtain ⟨_, ⟨⟨friend, reject⟩, hisFriend⟩, hisReject⟩ := apart
  rw [← linked.friends_iff] at hisFriend
  rw [← linked.rejects_iff] at hisReject
  exact ⟨⟨hisFriend, hisReject⟩, friend, reject⟩

theorem mem_peers {uid peer : Int} :
    peer ∈ service.peers uid ↔
      relation service.loadedOnline uid peer ≠ 0 ∧ service.uidToSIDs peer ≠ ∅ := by
  unfold peers
  rw [Finset.mem_filter, Ne, Ne, relation_eq_zero, linked.lists uid, linked.lists peer]
  simp only [Finset.mem_union]
  rw [linked.friends_iff peer uid, linked.rejects_iff peer uid]
  tauto

/-! ### Computing the entries -/

theorem mem_sidEntries (order : Order) (uid : Int) (entry : SidEntry) :
    entry ∈ service.sidEntries order uid ↔
      service.Expected service.loadedOnline uid entry := by
  unfold sidEntries Expected
  rw [List.mem_flatMap]
  constructor
  · rintro ⟨peer, _member, inside⟩
    split at inside
    · cases inside
    · rename_i nonzero
      rw [List.mem_map] at inside
      obtain ⟨sid, slot, rfl⟩ := inside
      rw [order.mem_each, linked.online_iff] at slot
      exact ⟨slot, linked.peerStat_eq uid peer, nonzero⟩
  · rintro ⟨online, stat, nonzero⟩
    have slot := (linked.online_iff entry.uid entry.sid).mpr online
    refine ⟨entry.uid, ?_, ?_⟩
    · rw [order.mem_each, linked.mem_peers]
      refine ⟨stat ▸ nonzero, ?_⟩
      exact Finset.ne_empty_of_mem slot
    · rw [linked.peerStat_eq uid entry.uid, ← stat, if_neg nonzero, List.mem_map]
      exact ⟨entry.sid, (order.mem_each _ _).mpr slot, rfl⟩

theorem sidEntries_pairwise (order : Order) (uid : Int) :
    (service.sidEntries order uid).Pairwise fun left right => left.sid ≠ right.sid := by
  unfold sidEntries
  rw [List.pairwise_flatMap]
  constructor
  · intro peer _member
    split
    · exact List.Pairwise.nil
    · rw [List.pairwise_map]
      exact order.nodup_each _
  · refine (order.nodup_each _).imp ?_
    intro peer other differ left leftIn right rightIn same
    split at leftIn
    · cases leftIn
    · split at rightIn
      · cases rightIn
      · rw [List.mem_map] at leftIn rightIn
        obtain ⟨sid, slot, rfl⟩ := leftIn
        obtain ⟨sid', slot', rfl⟩ := rightIn
        rw [order.mem_each, linked.online_iff] at slot slot'
        obtain rfl : sid = sid' := same
        exact differ (linked.uid_unique slot slot')

end Linked

end Service

namespace SidEntry

instance total_rank : Std.Total SidEntry.rank where
  total left right := by
    unfold SidEntry.rank
    omega

instance trans_rank : IsTrans SidEntry SidEntry.rank where
  trans first second third one two := by
    unfold SidEntry.rank at one two ⊢
    omega

instance total_before : Std.Total SidEntry.before where
  total left right := le_total left.sid right.sid

instance trans_before : IsTrans SidEntry SidEntry.before where
  trans _ _ _ one two := le_trans one two

end SidEntry

theorem mapM_spec {Item Packed Seen : Type} {pack : Item → Option Packed}
    {unpack : Packed → Seen} {see : Item → Seen} (items : List Item)
    (each : ∀ item ∈ items, ∃ packed, pack item = some packed ∧ unpack packed = see item) :
    ∃ list, items.mapM pack = some list ∧ list.map unpack = items.map see := by
  induction items with
  | nil => exact ⟨[], rfl, rfl⟩
  | cons item rest ih =>
      obtain ⟨packed, done, seen⟩ := each item List.mem_cons_self
      obtain ⟨list, doneRest, seenRest⟩ :=
        ih fun other member => each other (List.mem_cons_of_mem _ member)
      refine ⟨packed :: list, ?_, ?_⟩
      · rw [List.mapM_cons, done, doneRest]
        rfl
      · rw [List.map_cons, List.map_cons, seen, seenRest]

/-! ### Limiting the entries -/

section Limit

variable {list : List SidEntry}

theorem mem_of_mem_limitEntries {entry : SidEntry} (member : entry ∈ limitEntries list) :
    entry ∈ list := by
  unfold limitEntries at member
  split at member
  · exact (List.mem_insertionSort SidEntry.rank).mp (List.mem_of_mem_take member)
  · exact member

theorem limitEntries_pairwise (apart : list.Pairwise fun left right => left.sid ≠ right.sid) :
    (limitEntries list).Pairwise fun left right => left.sid ≠ right.sid := by
  unfold limitEntries
  split
  · refine List.Pairwise.sublist (List.take_sublist _ _) ?_
    refine ((List.perm_insertionSort SidEntry.rank list).pairwise_iff ?_).mpr apart
    intro left right differ
    exact differ.symm
  · exact apart

theorem length_limitEntries : (limitEntries list).length ≤ maxFriendOnline := by
  unfold limitEntries
  split
  · exact List.length_take_le _ _
  · rename_i few
    exact Nat.le_of_not_lt few

theorem limitEntries_drops :
    (∀ entry ∈ list, entry ∈ limitEntries list) ∨
      (limitEntries list).length = maxFriendOnline ∧
        ∀ entry ∈ list, entry ∉ limitEntries list →
          ∀ other ∈ limitEntries list,
            friendStatPriority entry.stat ≤ friendStatPriority other.stat := by
  unfold limitEntries
  split
  · rename_i many
    right
    refine ⟨?_, ?_⟩
    · rw [List.length_take, List.length_insertionSort]
      exact Nat.min_eq_left (Nat.le_of_lt many)
    · intro entry member dropped other kept
      have ranked := List.pairwise_insertionSort SidEntry.rank list
      rw [← List.take_append_drop maxFriendOnline (list.insertionSort SidEntry.rank),
        List.pairwise_append] at ranked
      have sorted : entry ∈ list.insertionSort SidEntry.rank :=
        (List.mem_insertionSort SidEntry.rank).mpr member
      rw [← List.take_append_drop maxFriendOnline (list.insertionSort SidEntry.rank),
        List.mem_append] at sorted
      have order := ranked.2.2 other kept entry (sorted.resolve_left dropped)
      unfold SidEntry.rank at order
      omega
  · exact .inl fun _entry member => member

theorem sorted_limitEntries (apart : list.Pairwise fun left right => left.sid ≠ right.sid) :
    ((limitEntries list).insertionSort SidEntry.before).Pairwise
      fun left right => left.sid < right.sid := by
  have sorted := List.pairwise_insertionSort SidEntry.before (limitEntries list)
  have differ : ((limitEntries list).insertionSort SidEntry.before).Pairwise
      fun left right => left.sid ≠ right.sid :=
    ((List.perm_insertionSort SidEntry.before _).pairwise_iff fun differ => differ.symm).mpr
      (limitEntries_pairwise apart)
  refine (sorted.and differ).imp ?_
  rintro left right ⟨before, differ⟩
  exact lt_of_le_of_ne before differ

end Limit

namespace Service.Linked

variable {service : Service} (linked : Linked service)

include linked

theorem packEntry (config : Config) {uid : Int} {entry : SidEntry}
    (expected : service.Expected service.loadedOnline uid entry) :
    ∃ packed, Service.packEntry config entry = some packed ∧ unpackFriendOnline packed =
      (entry.stat, uidTag (if config.enableUIDTag then entry.uid else 0), entry.sid.toNat) := by
  obtain ⟨online, stat, _nonzero⟩ := expected
  obtain ⟨pid, session, found, _user, slot, positive, low⟩ := online
  have high := linked.inRange pid session found
  rw [slot] at high
  refine packFriendOnline_spec (stat ▸ relation_mem _ uid _) ?_ low high
  split
  · exact le_of_lt positive
  · exact le_rfl

theorem compute (config : Config) (order : Order) (uid : Int) :
    ∃ entries, service.computeFriendOnlineForUIDLocked config order uid = some entries ∧
      service.Shows config service.loadedOnline uid entries := by
  have all := linked.mem_sidEntries order uid
  have kept : ∀ entry ∈ service.keptEntries order uid,
      service.Expected service.loadedOnline uid entry := by
    intro entry member
    exact (all entry).mp (mem_of_mem_limitEntries ((List.mem_insertionSort _).mp member))
  obtain ⟨entries, packed, unpacked⟩ := mapM_spec (service.keptEntries order uid)
    fun entry member => linked.packEntry config (kept entry member)
  refine ⟨entries, packed, service.keptEntries order uid, unpacked,
    sorted_limitEntries (linked.sidEntries_pairwise order uid), kept, ?_, ?_⟩
  · unfold keptEntries
    rw [List.length_insertionSort]
    exact length_limitEntries
  · obtain complete | ⟨full, drops⟩ := @limitEntries_drops (service.sidEntries order uid)
    · left
      intro entry expected
      exact (List.mem_insertionSort _).mpr (complete entry ((all entry).mpr expected))
    · right
      refine ⟨?_, ?_⟩
      · unfold keptEntries
        rw [List.length_insertionSort]
        exact full
      · intro entry expected dropped other member
        refine drops entry ((all entry).mpr expected) ?_ other
          ((List.mem_insertionSort _).mp member)
        exact fun inside => dropped ((List.mem_insertionSort _).mpr inside)

end Service.Linked

/-! ### Publishing -/

namespace Service

def withCache (service : Service) (cache : Int → List Nat) : Service :=
  { service with sessionFriendsCache := cache }

theorem Linked.withCache {service : Service} (linked : Linked service) (cache : Int → List Nat) :
    Linked (service.withCache cache) where
  pid_eq := linked.pid_eq
  inRange := linked.inRange
  slot_iff := linked.slot_iff
  online_iff := linked.online_iff
  friends_iff := linked.friends_iff
  rejects_iff := linked.rejects_iff
  offline := linked.offline
  lists := linked.lists

theorem Linked.sync {service : Service} (linked : Linked service) (config : Config)
    (order : Order) (uid : Int) :
    ∃ cache, service.syncUIDFriendsToSHMLocked config order uid = some (service.withCache cache) ∧
      ∀ user sid, service.Online user sid →
        (user = uid → service.Shows config service.loadedOnline user (cache sid)) ∧
          (user ≠ uid → cache sid = service.sessionFriendsCache sid) := by
  unfold syncUIDFriendsToSHMLocked
  split
  · rename_i nobody
    refine ⟨service.sessionFriendsCache, rfl, ?_⟩
    intro user sid online
    refine ⟨?_, fun _ => rfl⟩
    rintro rfl
    obtain ⟨_, _, _, _, _, positive, _⟩ := online
    exact absurd positive (not_lt.mpr nobody)
  · split
    · rename_i absent
      refine ⟨service.sessionFriendsCache, rfl, ?_⟩
      intro user sid online
      refine ⟨?_, fun _ => rfl⟩
      rintro rfl
      rw [← linked.online_iff, absent] at online
      cases online
    · obtain ⟨entries, computed, shows⟩ := linked.compute config order uid
      rw [computed]
      refine ⟨_, rfl, ?_⟩
      intro user sid online
      refine ⟨?_, ?_⟩
      · rintro rfl
        rw [if_pos ((linked.online_iff user sid).mpr online)]
        exact shows
      · intro differ
        refine if_neg ?_
        intro member
        exact differ (linked.uid_unique online ((linked.online_iff uid sid).mp member))

theorem Linked.publishList {service : Service} (linked : Linked service) (config : Config)
    (order : Order) (uids : List Int) :
    ∃ cache, uids.foldlM
        (fun service uid => service.syncUIDFriendsToSHMLocked config order uid) service =
          some (service.withCache cache) ∧
      ∀ user sid, service.Online user sid →
        (user ∈ uids → service.Shows config service.loadedOnline user (cache sid)) ∧
          (user ∉ uids → cache sid = service.sessionFriendsCache sid) := by
  induction uids generalizing service with
  | nil => exact ⟨service.sessionFriendsCache, rfl, fun _ _ _ => ⟨nofun, fun _ => rfl⟩⟩
  | cons uid rest ih =>
      obtain ⟨first, synced, one⟩ := linked.sync config order uid
      obtain ⟨cache, done, others⟩ := ih (linked.withCache first)
      refine ⟨cache, ?_, ?_⟩
      · rw [List.foldlM_cons, synced]
        exact done
      · intro user sid online
        by_cases later : user ∈ rest
        · refine ⟨fun _ => (others user sid online).1 later, ?_⟩
          intro outside
          exact absurd (List.mem_cons_of_mem _ later) outside
        · have same : cache sid = first sid := (others user sid online).2 later
          refine ⟨?_, ?_⟩
          · intro member
            rw [same]
            exact (one user sid online).1 ((List.mem_cons.mp member).resolve_right later)
          · intro outside
            rw [same]
            exact (one user sid online).2 fun here => outside (here ▸ List.mem_cons_self)

def Fresh (config : Config) (service : Service) : Prop :=
  ∀ uid sid, service.Online uid sid →
    service.Shows config service.loadedOnline uid (service.sessionFriendsCache sid)

theorem Linked.publish {config : Config} {service : Service} (linked : Linked service)
    (order : Order) (affected : Finset Int)
    (others : ∀ uid sid, service.Online uid sid → uid ∉ affected →
      service.Shows config service.loadedOnline uid (service.sessionFriendsCache sid)) :
    ∃ after, service.publish config order affected = some after ∧ Linked after ∧
      Fresh config after := by
  obtain ⟨cache, done, each⟩ := linked.publishList config order (order.each affected)
  refine ⟨service.withCache cache, done, linked.withCache cache, ?_⟩
  intro uid sid online
  change service.Shows config service.loadedOnline uid (cache sid)
  by_cases member : uid ∈ affected
  · exact (each uid sid online).1 ((order.mem_each affected uid).mpr member)
  · rw [(each uid sid online).2 fun inside => member ((order.mem_each affected uid).mp inside)]
    exact others uid sid online member

end Service

/-! ### What a request leaves alone -/

namespace Service

theorem Shows.congr {config : Config} {before after : Service} {lists lists' : Int → Lists}
    {uid : Int} (same : ∀ entry, before.Expected lists uid entry ↔ after.Expected lists' uid entry)
    {entries : List Nat} (shows : before.Shows config lists uid entries) :
    after.Shows config lists' uid entries := by
  obtain ⟨kept, packed, sorted, inside, few, complete⟩ := shows
  refine ⟨kept, packed, sorted, fun entry member => (same entry).mp (inside entry member), few, ?_⟩
  obtain all | ⟨full, drops⟩ := complete
  · exact .inl fun entry expected => all entry ((same entry).mpr expected)
  · exact .inr ⟨full, fun entry expected => drops entry ((same entry).mpr expected)⟩

structure Moved (before after : Service) (uid : Int) : Prop where
  lists : ∀ peer, peer ≠ uid → after.loadedOnline peer = before.loadedOnline peer
  online : ∀ peer sid, peer ≠ uid → (after.Online peer sid ↔ before.Online peer sid)

theorem Moved.expected {before after : Service} {uid user : Int} (moved : Moved before after uid)
    (other : user ≠ uid) (none : relation before.loadedOnline user uid = 0)
    (none' : relation after.loadedOnline user uid = 0) (entry : SidEntry) :
    before.Expected before.loadedOnline user entry ↔
      after.Expected after.loadedOnline user entry := by
  unfold Expected
  by_cases same : entry.uid = uid
  · rw [same, none, none']
    constructor
    · rintro ⟨_, zero, nonzero⟩
      exact absurd zero nonzero
    · rintro ⟨_, zero, nonzero⟩
      exact absurd zero nonzero
  · have relations : relation after.loadedOnline user entry.uid =
        relation before.loadedOnline user entry.uid := by
      unfold relation
      rw [moved.lists user other, moved.lists entry.uid same]
    rw [moved.online entry.uid entry.sid same, relations]

structure Settles (config : Config) (before after : Service) (affected : Finset Int) : Prop where
  linked : Linked after
  others : ∀ uid sid, after.Online uid sid → uid ∉ affected →
    before.Online uid sid ∧ after.sessionFriendsCache sid = before.sessionFriendsCache sid ∧
      ∀ entries, before.Shows config before.loadedOnline uid entries →
        after.Shows config after.loadedOnline uid entries

namespace Settles

variable {config : Config}

theorem refl {service : Service} (linked : Linked service) : Settles config service service ∅ :=
  ⟨linked, fun _ _ online _ => ⟨online, rfl, fun _ shows => shows⟩⟩

theorem trans {first second third : Service} {early late : Finset Int}
    (one : Settles config first second early) (two : Settles config second third late) :
    Settles config first third (early ∪ late) where
  linked := two.linked
  others := by
    intro uid sid online apart
    rw [Finset.mem_union, not_or] at apart
    obtain ⟨middle, cached, shows⟩ := two.others uid sid online apart.2
    obtain ⟨start, cached', shows'⟩ := one.others uid sid middle apart.1
    exact ⟨start, cached.trans cached', fun entries shown => shows entries (shows' entries shown)⟩

theorem publish {before after : Service} {affected : Finset Int}
    (settles : Settles config before after affected) (fresh : Fresh config before)
    (order : Order) :
    ∃ published, after.publish config order affected = some published ∧ Linked published ∧
      Fresh config published := by
  refine settles.linked.publish order affected ?_
  intro uid sid online apart
  obtain ⟨start, cached, shows⟩ := settles.others uid sid online apart
  rw [cached]
  exact shows _ (fresh uid sid start)

end Settles

/-! ### Lists -/

theorem mem_relink {forward rev : Int → Finset Int}
    (linked : ∀ uid peer, peer ∈ forward uid ↔ uid ∈ rev peer) (uid : Int) (new : Finset Int)
    (user peer : Int) :
    peer ∈ Function.update forward uid new user ↔
      user ∈ relink rev uid (forward uid) new peer := by
  unfold relink
  by_cases same : user = uid
  · subst same
    rw [Function.update_self]
    split
    · rename_i listed
      simp [listed]
    · rename_i unlisted
      split
      · simp [unlisted]
      · rename_i never
        rw [← linked]
        simp [unlisted, never]
  · rw [Function.update_of_ne same, linked]
    split
    · simp [same]
    · split
      · simp [same]
      · rfl

theorem mem_relink_of_ne {rev : Int → Finset Int} {uid user peer : Int} {old new : Finset Int}
    (differ : user ≠ uid) : user ∈ relink rev uid old new peer ↔ user ∈ rev peer := by
  unfold relink
  split
  · simp [differ]
  · split
    · simp [differ]
    · rfl

/-! ### The end of a session -/

section Cleanup

variable {config : Config} {service : Service} (linked : Linked service)
  {session : SubscriberSession} (found : service.onlineSessions session.pid = some session)

include linked found

theorem Linked.uid_of_slot {uid : Int} (online : service.Online uid session.sid) :
    uid = session.uid := by
  obtain ⟨pid, other, known, rfl, same, _, slot⟩ := online
  have pids := linked.session_unique known found (same ▸ slot) same
  subst pids
  rw [known] at found
  cases found
  rfl

theorem Linked.online_drop {after : Service}
    (dropped : after.onlineSessions = Function.update service.onlineSessions session.pid none)
    (uid sid : Int) :
    after.Online uid sid ↔ service.Online uid sid ∧ sid ≠ session.sid := by
  unfold Online
  rw [dropped]
  constructor
  · rintro ⟨pid, other, known, user, slot, positive, low⟩
    by_cases same : pid = session.pid
    · rw [same, Function.update_self] at known
      cases known
    · rw [Function.update_of_ne same] at known
      refine ⟨⟨pid, other, known, user, slot, positive, low⟩, ?_⟩
      intro taken
      exact same (linked.session_unique known found (slot ▸ low) (slot.trans taken))
  · rintro ⟨⟨pid, other, known, user, slot, positive, low⟩, differ⟩
    refine ⟨pid, other, ?_, user, slot, positive, low⟩
    rw [Function.update_of_ne]
    · exact known
    · rintro rfl
      rw [known] at found
      cases found
      exact differ slot.symm

theorem Linked.drop_slot_iff {after : Service}
    (dropped : after.onlineSessions = Function.update service.onlineSessions session.pid none)
    (slots : after.sidToPID = (service.dropSession config session).sidToPID) (sid pid : Int) :
    after.sidToPID sid = some pid ↔
      ∃ other, after.onlineSessions pid = some other ∧ other.sid = sid ∧ 0 ≤ sid := by
  -- The slot of the session is the only one that leads to it.
  have own : service.sidToPID sid = some session.pid →
      sid = session.sid ∧ 0 ≤ session.sid ∧ service.sidToPID session.sid = some session.pid := by
    intro leads
    obtain ⟨other, known, slot, low⟩ := (linked.slot_iff sid session.pid).mp leads
    rw [found] at known
    cases known
    exact ⟨slot.symm, slot ▸ low, slot ▸ leads⟩
  have remains : after.sidToPID sid = some pid ↔
      service.sidToPID sid = some pid ∧ pid ≠ session.pid := by
    rw [slots]
    unfold dropSession
    dsimp only
    split
    · rename_i taken
      by_cases same : sid = session.sid
      · rw [same, Function.update_self, taken.2]
        constructor
        · intro leads
          cases leads
        · rintro ⟨leads, differ⟩
          exact absurd (Option.some.inj leads).symm differ
      · rw [Function.update_of_ne same]
        refine ⟨fun leads => ⟨leads, ?_⟩, fun leads => leads.1⟩
        rintro rfl
        exact same (own leads).1
    · rename_i free
      refine ⟨fun leads => ⟨leads, ?_⟩, fun leads => leads.1⟩
      rintro rfl
      exact free (own leads).2
  rw [remains, linked.slot_iff, dropped]
  constructor
  · rintro ⟨⟨other, known, slot, low⟩, differ⟩
    exact ⟨other, by rw [Function.update_of_ne differ, known], slot, low⟩
  · rintro ⟨other, known, slot, low⟩
    by_cases same : pid = session.pid
    · rw [same, Function.update_self] at known
      cases known
    · rw [Function.update_of_ne same] at known
      exact ⟨⟨other, known, slot, low⟩, same⟩

theorem Linked.drop (config : Config) {after : Service}
    (dropped : after.onlineSessions = Function.update service.onlineSessions session.pid none)
    (slots : after.sidToPID = (service.dropSession config session).sidToPID)
    (online : ∀ uid sid, sid ∈ after.uidToSIDs uid ↔ after.Online uid sid)
    (friends : ∀ uid peer, peer ∈ after.userFriends uid ↔ uid ∈ after.revFriends peer)
    (rejects : ∀ uid peer, peer ∈ after.userRejects uid ↔ uid ∈ after.revRejects peer)
    (offline : ∀ uid, after.uidToSIDs uid = ∅ →
      after.userFriends uid = ∅ ∧ after.userRejects uid = ∅)
    (lists : ∀ uid, after.loadedOnline uid = ⟨after.userFriends uid, after.userRejects uid⟩) :
    Linked after := by
  have kept : ∀ pid other, after.onlineSessions pid = some other →
      service.onlineSessions pid = some other := by
    intro pid other known
    rw [dropped] at known
    by_cases same : pid = session.pid
    · rw [same, Function.update_self] at known
      cases known
    · rw [Function.update_of_ne same] at known
      exact known
  exact
    { pid_eq := fun pid other known => linked.pid_eq pid other (kept pid other known)
      inRange := fun pid other known => linked.inRange pid other (kept pid other known)
      slot_iff := linked.drop_slot_iff found dropped slots
      online_iff := online
      friends_iff := friends
      rejects_iff := rejects
      offline := offline
      lists := lists }

theorem Linked.online_drop_untracked
    (untracked : session.uid ≤ 0 ∨ service.uidToSIDs session.uid = ∅) (uid sid : Int) :
    (service.dropSession config session).Online uid sid ↔ service.Online uid sid := by
  rw [linked.online_drop found rfl]
  refine ⟨fun both => both.1, fun online => ⟨online, ?_⟩⟩
  rintro rfl
  have user := linked.uid_of_slot found online
  subst user
  obtain nobody | absent := untracked
  · obtain ⟨_, _, _, _, _, positive, _⟩ := online
    exact absurd positive (not_lt.mpr nobody)
  · rw [← linked.online_iff, absent] at online
    cases online

theorem Linked.settles_untracked
    (untracked : session.uid ≤ 0 ∨ service.uidToSIDs session.uid = ∅) (affected : Finset Int) :
    Settles config service (service.dropSession config session) affected where
  linked := by
    refine linked.drop found config rfl rfl ?_ linked.friends_iff linked.rejects_iff linked.offline
      linked.lists
    intro uid sid
    rw [linked.online_drop_untracked found untracked]
    exact linked.online_iff uid sid
  others := by
    intro uid sid online _apart
    have before := (linked.online_drop found rfl uid sid).mp online
    refine ⟨before.1, ?_, ?_⟩
    · unfold dropSession
      dsimp only
      split
      · exact Function.update_of_ne before.2 _ _
      · rfl
    · intro entries shows
      refine shows.congr ?_
      intro entry
      unfold Expected
      rw [linked.online_drop_untracked found untracked]
      rfl

section

variable {after : Service}
  (dropped : after.onlineSessions = Function.update service.onlineSessions session.pid none)

include dropped

theorem Linked.mem_erase_sid (sids : after.uidToSIDs = Function.update service.uidToSIDs session.uid
      ((service.uidToSIDs session.uid).erase session.sid)) (uid sid : Int) :
    sid ∈ after.uidToSIDs uid ↔ after.Online uid sid := by
  rw [linked.online_drop found dropped, sids, ← linked.online_iff]
  by_cases same : uid = session.uid
  · subst same
    rw [Function.update_self, Finset.mem_erase, and_comm]
  · rw [Function.update_of_ne same]
    refine ⟨fun member => ⟨member, ?_⟩, fun both => both.1⟩
    rintro rfl
    exact same (linked.uid_of_slot found ((linked.online_iff uid _).mp member))

theorem Linked.moved_drop
    (lists : ∀ peer, peer ≠ session.uid → after.loadedOnline peer = service.loadedOnline peer) :
    Moved service after session.uid where
  lists := lists
  online := by
    intro peer sid other
    rw [linked.online_drop found dropped]
    refine ⟨fun both => both.1, fun online => ⟨online, ?_⟩⟩
    rintro rfl
    exact other (linked.uid_of_slot found online)

theorem Linked.others_drop
    (cached : after.sessionFriendsCache = (service.dropSession config session).sessionFriendsCache)
    (lists : ∀ peer, peer ≠ session.uid → after.loadedOnline peer = service.loadedOnline peer)
    (fewer : after.loadedOnline session.uid = service.loadedOnline session.uid ∨
      after.loadedOnline session.uid = {}) (uid sid : Int) (online : after.Online uid sid)
    (apart : uid ∉ service.related session.uid) :
    service.Online uid sid ∧ after.sessionFriendsCache sid = service.sessionFriendsCache sid ∧
      ∀ entries, service.Shows config service.loadedOnline uid entries →
        after.Shows config after.loadedOnline uid entries := by
  have before := (linked.online_drop found dropped uid sid).mp online
  have moved := linked.moved_drop found dropped lists
  have other : uid ≠ session.uid := by
    rintro rfl
    exact apart (Finset.mem_insert_self _ _)
  have none := linked.relation_eq_zero_of_not_related apart
  have none' : relation after.loadedOnline uid session.uid = 0 := by
    rw [relation_eq_zero] at none ⊢
    rw [lists uid other]
    obtain same | empty := fewer
    · rw [same]
      exact none
    · rw [empty]
      exact ⟨none.1, by simp⟩
  refine ⟨before.1, ?_, fun entries shows => shows.congr (moved.expected other none none')⟩
  rw [cached]
  unfold dropSession
  dsimp only
  split
  · exact Function.update_of_ne before.2 _ _
  · rfl

end

theorem Linked.settles_cleanup :
    Settles config service (service.cleanupSessionLocked config session).1
      (service.cleanupSessionLocked config session).2 := by
  unfold cleanupSessionLocked
  dsimp only
  split
  · rename_i nobody
    exact linked.settles_untracked found (.inl nobody) ∅
  · split
    · rename_i absent
      exact linked.settles_untracked found (.inr absent) _
    · split
      · -- The last session of the user takes his lists along.
        rename_i last
        refine ⟨linked.drop found config rfl rfl (linked.mem_erase_sid found rfl rfl)
          (mem_relink linked.friends_iff session.uid ∅)
          (mem_relink linked.rejects_iff session.uid ∅) ?_ ?_,
          linked.others_drop found rfl rfl ?_ (.inr ?_)⟩
        · intro uid nobody
          by_cases same : uid = session.uid
          · subst same
            exact ⟨Function.update_self _ _ _, Function.update_self _ _ _⟩
          · have before := linked.offline uid ((Function.update_of_ne same _ _).symm.trans nobody)
            exact ⟨(Function.update_of_ne same _ _).trans before.1,
              (Function.update_of_ne same _ _).trans before.2⟩
        · intro uid
          change Function.update service.loadedOnline session.uid {} uid =
            Lists.mk (Function.update service.userFriends session.uid ∅ uid)
              (Function.update service.userRejects session.uid ∅ uid)
          by_cases same : uid = session.uid
          · subst same
            rw [Function.update_self, Function.update_self, Function.update_self]
          · rw [Function.update_of_ne same, Function.update_of_ne same, Function.update_of_ne same]
            exact linked.lists uid
        · intro peer other
          exact Function.update_of_ne other _ _
        · exact Function.update_self _ _ _
      · rename_i more
        refine ⟨linked.drop found config rfl rfl (linked.mem_erase_sid found rfl rfl)
          linked.friends_iff linked.rejects_iff ?_ linked.lists,
          linked.others_drop found rfl rfl (fun _ _ => rfl) (.inl rfl)⟩
        intro uid nobody
        by_cases same : uid = session.uid
        · subst same
          exact absurd ((Function.update_self _ _ _).symm.trans nobody) more
        · exact linked.offline uid ((Function.update_of_ne same _ _).symm.trans nobody)

end Cleanup

end Service

/-! ### A new session -/

namespace Service

theorem cleanup_sessions (config : Config) (service : Service) (session : SubscriberSession) :
    (service.cleanupSessionLocked config session).1.onlineSessions =
      Function.update service.onlineSessions session.pid none := by
  unfold cleanupSessionLocked
  dsimp only
  split
  · rfl
  · split
    · rfl
    · split
      · rfl
      · rfl

theorem cleanupIfAny_sessions (config : Config) (service : Service)
    (any : Option SubscriberSession) {pid : Int} {session : SubscriberSession}
    (known : (service.cleanupIfAny config any).1.onlineSessions pid = some session) :
    service.onlineSessions pid = some session ∧ ∀ gone ∈ any, gone.pid ≠ pid := by
  cases any with
  | none => exact ⟨known, nofun⟩
  | some gone =>
      change (service.cleanupSessionLocked config gone).1.onlineSessions pid = some session at known
      rw [cleanup_sessions] at known
      by_cases same : pid = gone.pid
      · rw [same, Function.update_self] at known
        cases known
      · rw [Function.update_of_ne same] at known
        refine ⟨known, ?_⟩
        intro other isGone
        cases isGone
        exact fun equal => same equal.symm

theorem Linked.settles_cleanupIfAny {config : Config} {service : Service} (linked : Linked service)
    (any : Option SubscriberSession)
    (found : ∀ session ∈ any, service.onlineSessions session.pid = some session) :
    Settles config service (service.cleanupIfAny config any).1
      (service.cleanupIfAny config any).2 := by
  cases any with
  | none => exact .refl linked
  | some session => exact linked.settles_cleanup (found session rfl)

theorem Linked.stale_found {service : Service} (linked : Linked service) (pid sid : Int) :
    ∀ session ∈ service.staleSession pid sid,
      service.onlineSessions session.pid = some session := by
  intro session stale
  unfold staleSession at stale
  split at stale
  · split at stale
    · split at stale
      · rw [linked.pid_eq _ session stale]
        exact stale
      · cases stale
    · cases stale
  · cases stale

structure Vacant (service : Service) (pid sid : Int) : Prop where
  process : service.onlineSessions pid = none
  slot : 0 ≤ sid → ∀ other session, service.onlineSessions other = some session →
    session.sid ≠ sid

section Add

variable {config : Config} {service : Service} (linked : Linked service)

include linked

theorem Linked.vacant (config : Config) (pid sid : Int) :
    let evicted := (service.cleanupIfAny config (service.staleSession pid sid)).1
    Vacant (evicted.cleanupIfAny config (evicted.onlineSessions pid)).1 pid sid := by
  dsimp only
  have evicts := (linked.settles_cleanupIfAny (service.staleSession pid sid)
    (linked.stale_found pid sid) : Settles config service _ _)
  constructor
  · by_contra some
    rw [← Ne, Option.ne_none_iff_exists'] at some
    obtain ⟨session, known⟩ := some
    obtain ⟨before, apart⟩ := cleanupIfAny_sessions config _ _ known
    exact apart session before (evicts.linked.pid_eq pid session before)
  · intro low other session known taken
    obtain ⟨middle, apart⟩ := cleanupIfAny_sessions config _ _ known
    obtain ⟨start, kept⟩ := cleanupIfAny_sessions config _ _ middle
    have owner := linked.pid_eq other session start
    by_cases same : other = pid
    · subst same
      exact apart session middle owner
    · refine kept session ?_ owner
      have leads := (linked.slot_iff sid other).mpr ⟨session, start, taken, low⟩
      unfold staleSession
      rw [if_pos low, leads]
      dsimp only
      rw [if_pos same]
      exact start

variable {session : SubscriberSession} (vacant : Vacant service session.pid session.sid)

include vacant

omit linked in
theorem Vacant.online_add {after : Service}
    (added : after.onlineSessions = Function.update service.onlineSessions session.pid
      (some session)) (uid sid : Int) :
    after.Online uid sid ↔ service.Online uid sid ∨
      uid = session.uid ∧ sid = session.sid ∧ 0 < session.uid ∧ 0 ≤ session.sid := by
  unfold Online
  rw [added]
  constructor
  · rintro ⟨pid, other, known, rfl, rfl, positive, low⟩
    by_cases same : pid = session.pid
    · rw [same, Function.update_self] at known
      cases known
      exact .inr ⟨rfl, rfl, positive, low⟩
    · rw [Function.update_of_ne same] at known
      exact .inl ⟨pid, other, known, rfl, rfl, positive, low⟩
  · rintro (⟨pid, other, known, user, slot, positive, low⟩ | ⟨rfl, rfl, positive, low⟩)
    · refine ⟨pid, other, ?_, user, slot, positive, low⟩
      rw [Function.update_of_ne]
      · exact known
      · rintro rfl
        rw [vacant.process] at known
        cases known
    · exact ⟨session.pid, session, Function.update_self _ _ _, rfl, rfl, positive, low⟩

theorem Linked.add_slot_iff {after : Service}
    (added : after.onlineSessions = Function.update service.onlineSessions session.pid
      (some session))
    (slots : after.sidToPID = (service.addSession config session).sidToPID) (sid pid : Int) :
    after.sidToPID sid = some pid ↔
      ∃ other, after.onlineSessions pid = some other ∧ other.sid = sid ∧ 0 ≤ sid := by
  rw [slots, added]
  unfold addSession
  dsimp only
  by_cases same : pid = session.pid
  · subst same
    rw [Function.update_self]
    have nowhere : service.sidToPID sid ≠ some session.pid := by
      intro leads
      obtain ⟨other, known, _⟩ := (linked.slot_iff sid session.pid).mp leads
      rw [vacant.process] at known
      cases known
    split
    · by_cases here : sid = session.sid
      · subst here
        rename_i low
        rw [Function.update_self]
        exact ⟨fun _ => ⟨session, rfl, rfl, low⟩, fun _ => rfl⟩
      · rw [Function.update_of_ne here]
        refine ⟨fun leads => absurd leads nowhere, ?_⟩
        rintro ⟨other, known, slot, _⟩
        cases known
        exact absurd slot.symm here
    · rename_i high
      refine ⟨fun leads => absurd leads nowhere, ?_⟩
      rintro ⟨other, known, slot, low⟩
      cases known
      exact absurd (slot ▸ low) high
  · rw [Function.update_of_ne same, ← linked.slot_iff]
    split
    · rename_i low
      by_cases here : sid = session.sid
      · subst here
        rw [Function.update_self]
        constructor
        · intro leads
          exact absurd (Option.some.inj leads).symm same
        · intro leads
          obtain ⟨other, known, slot, _⟩ := (linked.slot_iff _ pid).mp leads
          exact absurd slot (vacant.slot low pid other known)
      · rw [Function.update_of_ne here]
    · rfl

theorem Linked.add (config : Config) {after : Service}
    (added : after.onlineSessions = Function.update service.onlineSessions session.pid
      (some session))
    (slots : after.sidToPID = (service.addSession config session).sidToPID)
    (inRange : session.sid ≤ friendOnlineSlotMask)
    (online : ∀ uid sid, sid ∈ after.uidToSIDs uid ↔ after.Online uid sid)
    (friends : ∀ uid peer, peer ∈ after.userFriends uid ↔ uid ∈ after.revFriends peer)
    (rejects : ∀ uid peer, peer ∈ after.userRejects uid ↔ uid ∈ after.revRejects peer)
    (offline : ∀ uid, after.uidToSIDs uid = ∅ →
      after.userFriends uid = ∅ ∧ after.userRejects uid = ∅)
    (lists : ∀ uid, after.loadedOnline uid = ⟨after.userFriends uid, after.userRejects uid⟩) :
    Linked after := by
  have kept : ∀ pid other, after.onlineSessions pid = some other →
      pid = session.pid ∧ other = session ∨ service.onlineSessions pid = some other := by
    intro pid other known
    rw [added] at known
    by_cases same : pid = session.pid
    · rw [same, Function.update_self] at known
      cases known
      exact .inl ⟨same, rfl⟩
    · rw [Function.update_of_ne same] at known
      exact .inr known
  refine
    { pid_eq := ?_
      inRange := ?_
      slot_iff := linked.add_slot_iff vacant added slots
      online_iff := online
      friends_iff := friends
      rejects_iff := rejects
      offline := offline
      lists := lists }
  · intro pid other known
    obtain ⟨rfl, rfl⟩ | before := kept pid other known
    · rfl
    · exact linked.pid_eq pid other before
  · intro pid other known
    obtain ⟨rfl, rfl⟩ | before := kept pid other known
    · exact inRange
    · exact linked.inRange pid other before

theorem Linked.settles_add_untracked (inRange : session.sid ≤ friendOnlineSlotMask)
    (untracked : ¬ (0 < session.uid ∧ 0 ≤ session.sid)) :
    Settles config service (service.addSession config session) ∅ := by
  have online (uid sid : Int) :
      (service.addSession config session).Online uid sid ↔ service.Online uid sid := by
    rw [vacant.online_add rfl]
    refine ⟨?_, .inl⟩
    rintro (online | ⟨_, _, tracked⟩)
    · exact online
    · exact absurd tracked untracked
  refine ⟨linked.add vacant config rfl rfl inRange ?_ linked.friends_iff linked.rejects_iff ?_
    linked.lists, ?_⟩
  · intro uid sid
    rw [online, ← linked.online_iff]
    unfold addSession
    rw [if_neg untracked]
  · intro uid absent
    unfold addSession at absent
    rw [if_neg untracked] at absent
    exact linked.offline uid absent
  · intro uid sid here _apart
    refine ⟨(online uid sid).mp here, rfl, fun entries shows => shows.congr ?_⟩
    intro entry
    unfold Expected
    rw [online]
    rfl

theorem Linked.settles_add {after : Service} {lists : Lists}
    (inRange : session.sid ≤ friendOnlineSlotMask) (tracked : 0 < session.uid ∧ 0 ≤ session.sid)
    (sessions : after.onlineSessions = (service.addSession config session).onlineSessions)
    (slots : after.sidToPID = (service.addSession config session).sidToPID)
    (sids : after.uidToSIDs = (service.addSession config session).uidToSIDs)
    (friends : after.userFriends = Function.update service.userFriends session.uid lists.friends)
    (rejects : after.userRejects = Function.update service.userRejects session.uid lists.rejects)
    (revFriends : after.revFriends =
      relink service.revFriends session.uid (service.userFriends session.uid) lists.friends)
    (revRejects : after.revRejects =
      relink service.revRejects session.uid (service.userRejects session.uid) lists.rejects)
    (loaded : after.loadedOnline = Function.update service.loadedOnline session.uid lists)
    (cached : after.sessionFriendsCache = service.sessionFriendsCache) :
    Settles config service after
      (service.userFriends session.uid ∪ service.userRejects session.uid ∪
        after.related session.uid) := by
  have online (uid sid : Int) : after.Online uid sid ↔ service.Online uid sid ∨
      uid = session.uid ∧ sid = session.sid ∧ 0 < session.uid ∧ 0 ≤ session.sid :=
    vacant.online_add sessions uid sid
  have sidsOf (uid : Int) : after.uidToSIDs uid =
      if uid = session.uid then insert session.sid (service.uidToSIDs uid)
      else service.uidToSIDs uid := by
    rw [sids]
    unfold addSession
    dsimp only
    rw [if_pos tracked]
    by_cases same : uid = session.uid
    · rw [if_pos same, same, Function.update_self]
    · rw [if_neg same, Function.update_of_ne same]
  have moved : Moved service after session.uid := by
    refine ⟨fun peer other => loaded ▸ Function.update_of_ne other _ _, ?_⟩
    intro peer sid other
    rw [online]
    refine ⟨?_, .inl⟩
    rintro (before | ⟨same, _⟩)
    · exact before
    · exact absurd same other
  refine ⟨linked.add vacant config sessions slots inRange ?_ ?_ ?_ ?_ ?_, ?_⟩
  · intro uid sid
    rw [sidsOf, online, ← linked.online_iff]
    by_cases same : uid = session.uid
    · subst same
      simp [tracked, or_comm]
    · simp [same]
  · rw [friends, revFriends]
    exact mem_relink linked.friends_iff session.uid lists.friends
  · rw [rejects, revRejects]
    exact mem_relink linked.rejects_iff session.uid lists.rejects
  · intro uid absent
    rw [sidsOf] at absent
    by_cases same : uid = session.uid
    · rw [if_pos same] at absent
      exact absurd absent (Finset.insert_ne_empty _ _)
    · rw [if_neg same] at absent
      rw [friends, rejects, Function.update_of_ne same, Function.update_of_ne same]
      exact linked.offline uid absent
  · intro uid
    rw [loaded, friends, rejects]
    by_cases same : uid = session.uid
    · subst same
      rw [Function.update_self, Function.update_self, Function.update_self]
    · rw [Function.update_of_ne same, Function.update_of_ne same, Function.update_of_ne same]
      exact linked.lists uid
  · intro uid sid here apart
    simp only [Finset.mem_union, not_or] at apart
    obtain ⟨⟨oldFriend, oldReject⟩, unrelated⟩ := apart
    have other : uid ≠ session.uid := by
      rintro rfl
      exact unrelated (Finset.mem_insert_self _ _)
    unfold related at unrelated
    simp only [Finset.mem_insert, Finset.mem_union, not_or] at unrelated
    obtain ⟨_, ⟨⟨newFriend, newReject⟩, hisFriend⟩, hisReject⟩ := unrelated
    rw [revFriends, mem_relink_of_ne other, ← linked.friends_iff] at hisFriend
    rw [revRejects, mem_relink_of_ne other, ← linked.rejects_iff] at hisReject
    rw [friends, Function.update_self] at newFriend
    rw [rejects, Function.update_self] at newReject
    have none : relation service.loadedOnline uid session.uid = 0 := by
      rw [relation_eq_zero, linked.lists uid, linked.lists session.uid]
      exact ⟨⟨hisFriend, hisReject⟩, oldFriend, oldReject⟩
    have none' : relation after.loadedOnline uid session.uid = 0 := by
      rw [relation_eq_zero, moved.lists uid other, loaded, Function.update_self, linked.lists uid]
      exact ⟨⟨hisFriend, hisReject⟩, newFriend, newReject⟩
    exact ⟨(moved.online uid sid other).mp here, congrFun cached sid,
      fun entries shows => shows.congr (moved.expected other none none')⟩

end Add

theorem Linked.settles_enroll {config : Config} {service : Service} (linked : Linked service)
    (session : SubscriberSession) (inRange : session.sid ≤ friendOnlineSlotMask)
    (disk : Option (List Bytes × List Bytes)) :
    Settles config service (service.enroll config session disk).1
      (service.enroll config session disk).2 := by
  have evicts : Settles config service
      (service.cleanupIfAny config (service.staleSession session.pid session.sid)).1
      (service.cleanupIfAny config (service.staleSession session.pid session.sid)).2 :=
    linked.settles_cleanupIfAny _ (linked.stale_found session.pid session.sid)
  have vacant := linked.vacant config session.pid session.sid
  have kept := linked.lists session.uid
  unfold enroll
  dsimp only at vacant ⊢
  generalize service.cleanupIfAny config (service.staleSession session.pid session.sid) = evicted
    at evicts vacant ⊢
  have cleans : Settles config evicted.1
      (evicted.1.cleanupIfAny config (evicted.1.onlineSessions session.pid)).1
      (evicted.1.cleanupIfAny config (evicted.1.onlineSessions session.pid)).2 := by
    refine evicts.linked.settles_cleanupIfAny _ ?_
    intro old known
    rw [evicts.linked.pid_eq session.pid old known]
    exact known
  generalize evicted.1.cleanupIfAny config (evicted.1.onlineSessions session.pid) = cleaned
    at cleans vacant ⊢
  split
  · rename_i tracked
    refine (evicts.trans cleans).trans ?_
    refine cleans.linked.settles_add vacant inRange tracked rfl rfl rfl rfl rfl rfl rfl ?_ rfl
    dsimp only
    split
    · rfl
    · rename_i failed
      rw [Option.not_isSome_iff_eq_none] at failed
      subst failed
      rw [kept]
      rfl
  · rename_i untracked
    have last : Settles config cleaned.1 (cleaned.1.addSession config session) ∅ :=
      cleans.linked.settles_add_untracked vacant inRange untracked
    have added := (evicts.trans cleans).trans last
    rw [Finset.union_empty] at added
    exact added

/-! ### Requests -/

structure Current (config : Config) (service : Service) : Prop where
  linked : Linked service
  fresh : Fresh config service

namespace Current

variable {config : Config} {service : Service} (current : Current config service)

include current

theorem register {subscriberID : Bytes} {hintUID pid sid : Int} {visit : Visit}
    (inRange : config.shm = true ∧ 0 < pid ∨ sid ≤ friendOnlineSlotMask) :
    ∃ after, service.registerSubscriberFull config subscriberID hintUID pid sid visit =
      some after ∧ Current config after := by
  unfold registerSubscriberFull
  dsimp only
  split
  · exact ⟨service, rfl, current⟩
  · rename_i passed
    have slot : sid ≤ friendOnlineSlotMask := by
      obtain ⟨attached, positive⟩ | low := inRange
      · by_cases low : 0 ≤ sid
        · -- Shared memory has the process in the slot.
          by_contra large
          refine passed ⟨attached, low, positive, ?_⟩
          intro here
          rw [Option.map_eq_some_iff] at here
          obtain ⟨detail, found, _⟩ := here
          exact large (visit.late.valid sid detail found).2
        · omega
      · exact low
    obtain ⟨after, published, linked, fresh⟩ :=
      (current.linked.settles_enroll ⟨pid, sid, _, subscriberID⟩ slot _).publish current.fresh
        visit.order
    exact ⟨after, published, linked, fresh⟩

theorem logout (userID : Bytes) (pid : Int) (order : Order) :
    ∃ after, service.handleUserLogout config userID pid order = some after ∧
      Current config after := by
  unfold handleUserLogout
  split
  · exact ⟨service, rfl, current⟩
  · rename_i session known
    split
    · exact ⟨service, rfl, current⟩
    · have found : service.onlineSessions session.pid = some session := by
        rw [current.linked.pid_eq pid session known]
        exact known
      obtain ⟨after, published, linked, fresh⟩ :=
        (current.linked.settles_cleanup found).publish current.fresh order
      exact ⟨after, published, linked, fresh⟩

theorem reload (subscriberID : Bytes) (visit : Visit) :
    ∃ after, service.handleReloadAloha config subscriberID visit = some after ∧
      Current config after := by
  unfold handleReloadAloha
  split
  · exact ⟨service, rfl, current⟩
  · dsimp only
    split
    · exact ⟨service, rfl, current⟩
    · rename_i session rest chosen
      have member : session ∈ (visit.order.each
          (service.userPIDs (config.folding.toLower subscriberID))).filterMap
            service.onlineSessions := chosen ▸ List.mem_cons_self
      rw [List.mem_filterMap] at member
      obtain ⟨pid, _listed, known⟩ := member
      exact current.register (.inr (current.linked.inRange pid session known))

end Current

/-- A slot number that an entry can hold, where shared memory does not check it. -/
def InRange (config : Config) : FriendRequest → Prop
  | .login _ _ sid _ _ => config.shm = true ∨ sid ≤ friendOnlineSlotMask
  | .friendSync _ _ _ sid _ => config.shm = true ∨ sid ≤ friendOnlineSlotMask
  | _ => True

theorem Current.step {config : Config} {service : Service} (current : Current config service)
    {request : FriendRequest} (inRange : InRange config request) :
    ∃ after, Service.step config (some service) request = some after ∧ Current config after := by
  cases request with
  | login userID pid sid uid visit =>
      change ∃ after, service.handleUserLogin config userID pid sid uid visit = some after ∧ _
      unfold handleUserLogin
      split
      · exact ⟨service, rfl, current⟩
      · rename_i valid
        rw [not_or, not_le] at valid
        split
        · exact ⟨service, rfl, current⟩
        · exact current.register (inRange.imp (fun attached => ⟨attached, valid.2⟩) id)
  | friendSync userID uid pid sid visit =>
      change ∃ after, service.handleFriendSync config userID uid pid sid visit = some after ∧ _
      unfold handleFriendSync
      split
      · exact ⟨service, rfl, current⟩
      · rename_i valid
        rw [not_or, not_or, not_le] at valid
        exact current.register (inRange.imp (fun attached => ⟨attached, valid.2.1⟩) id)
  | logout userID pid order => exact current.logout userID pid order
  | reload userID visit => exact current.reload userID visit

theorem Current.start (config : Config) : Current config {} where
  linked :=
    { pid_eq := fun pid session known => nomatch known
      inRange := fun pid session known => nomatch known
      slot_iff := fun sid pid => ⟨fun leads => (nomatch leads), fun ⟨_, known, _⟩ => nomatch known⟩
      online_iff := fun uid sid =>
        ⟨fun member => absurd member (Finset.notMem_empty sid),
          fun ⟨_, _, known, _⟩ => nomatch known⟩
      friends_iff := fun uid peer => by simp
      rejects_iff := fun uid peer => by simp
      offline := fun uid absent => ⟨rfl, rfl⟩
      lists := fun uid => rfl }
  fresh := fun uid sid ⟨_, _, known, _⟩ => nomatch known

theorem Current.run {config : Config} {service : Service} (current : Current config service)
    {requests : List FriendRequest} (inRange : ∀ request ∈ requests, InRange config request) :
    ∃ after, Lib.run (Service.step config) (some service) requests = some after ∧
      Current config after := by
  induction requests generalizing service with
  | nil => exact ⟨service, rfl, current⟩
  | cons request rest ih =>
      obtain ⟨next, stepped, kept⟩ := current.step (inRange request List.mem_cons_self)
      rw [run_cons, stepped]
      exact ih kept fun later member => inRange later (List.mem_cons_of_mem _ member)

/-- A relation as the peer sees it: my bits for his, and his for mine. -/
def mirror (stat : Nat) : Nat :=
  (stat &&& (friendBitIRH ||| friendBitIFH ||| friendBitISH)) <<< 1 |||
    (stat &&& (friendBitHRM ||| friendBitHFM ||| friendBitHSM)) >>> 1

theorem mirror_relation (lists : Int → Lists) (uid peer : Int) :
    mirror (relation lists uid peer) = relation lists peer uid := by
  unfold relation Lists.stat
  split_ifs <;> decide

/-- If a session is shown another, that one is shown it with the relation the other way
round, unless the entries there are as many as can be. -/
def Mirrored (config : Config) (service : Service) : Prop :=
  ∀ uid sid peer slot stat tag, service.Online uid sid → service.Online peer slot →
    (stat, tag, slot.toNat) ∈ (service.sessionFriendsCache sid).map unpackFriendOnline →
    (service.sessionFriendsCache slot).length < maxFriendOnline →
    (mirror stat, uidTag (if config.enableUIDTag then uid else 0), sid.toNat) ∈
      (service.sessionFriendsCache slot).map unpackFriendOnline

theorem Current.mirrored {config : Config} {service : Service}
    (current : Current config service) : Mirrored config service := by
  intro uid sid peer slot stat tag mine his shown room
  obtain ⟨kept, entries, _, expected, _, _⟩ := current.fresh uid sid mine
  rw [entries, List.mem_map] at shown
  obtain ⟨entry, member, same⟩ := shown
  obtain ⟨online, related, some'⟩ := expected entry member
  have slots : entry.sid = slot := by
    have here := congrArg (fun fields => fields.2.2) same
    obtain ⟨_, _, _, _, _, _, low⟩ := online
    obtain ⟨_, _, _, _, _, _, low'⟩ := his
    dsimp only at here
    omega
  have users := current.linked.uid_unique (slots ▸ online) his
  have stats : entry.stat = stat := congrArg Prod.fst same
  rw [← stats, related, users, mirror_relation]
  rw [related, users, ← mirror_relation] at some'
  obtain ⟨back, entries', _, _, _, complete⟩ := current.fresh peer slot his
  have few : back.length < maxFriendOnline := by
    have lengths := congrArg List.length entries'
    rw [List.length_map, List.length_map] at lengths
    exact lengths ▸ room
  have all := complete.resolve_right fun full => absurd full.1 (Nat.ne_of_lt few)
  rw [entries', List.mem_map]
  refine ⟨⟨sid, uid, relation service.loadedOnline peer uid⟩, all _ ⟨mine, rfl, ?_⟩, rfl⟩
  exact fun none => some' (congrArg mirror none)

instance decidableInRange (config : Config) :
    (request : FriendRequest) → Decidable (InRange config request)
  | .login _ _ _ _ _ => inferInstanceAs (Decidable (_ ∨ _))
  | .friendSync _ _ _ _ _ => inferInstanceAs (Decidable (_ ∨ _))
  | .logout _ _ _ => isTrue trivial
  | .reload _ _ => isTrue trivial

def ascending : Order where
  each keys := Quotient.liftOn keys.val (List.insertionSort (· ≤ ·)) (by
    intro left right perm
    refine List.Perm.eq_of_pairwise (fun _ _ _ _ => le_antisymm)
      (List.pairwise_insertionSort _ left) (List.pairwise_insertionSort _ right) ?_
    exact ((List.perm_insertionSort _ left).trans perm).trans
      (List.perm_insertionSort _ right).symm)
  nodup_each := by
    rintro ⟨⟨list⟩, nodup⟩
    exact (List.perm_insertionSort _ list).nodup_iff.mpr nodup
  mem_each := by
    rintro ⟨⟨list⟩, nodup⟩ key
    exact List.mem_insertionSort _

def threeUsers : Config where
  folding := Folding.ascii
  uidOf id :=
    if id = utf8 "alice" then 10 else if id = utf8 "bob" then 20
    else if id = utf8 "eve" then 30 else 0
  shm := false
  enableUIDTag := true

def visitOf (overrides reject : Content) : Visit where
  early := ⟨fun _ => none, nofun⟩
  late := ⟨fun _ => none, nofun⟩
  overrides := overrides
  reject := reject
  order := ascending

def slotReuse : List FriendRequest :=
  [.friendSync (utf8 "alice") 10 1001 5 (visitOf (.bytes (utf8 "bob")) (.bytes (utf8 "eve"))),
    .friendSync (utf8 "bob") 20 1002 12 (visitOf (.bytes (utf8 "alice")) .missing),
    .friendSync (utf8 "eve") 30 1003 12 (visitOf .missing .missing)]

/-- Alice, who rejects Eve, comes back when her lists cannot be read. -/
def unreadRelogin : List FriendRequest :=
  [.friendSync (utf8 "alice") 10 1001 5 (visitOf .missing (.bytes (utf8 "eve"))),
    .friendSync (utf8 "eve") 30 1003 25 (visitOf .missing .missing),
    .logout (utf8 "alice") 1001 ascending,
    .friendSync (utf8 "alice") 10 1004 5 (visitOf .failed .failed)]

def wideSlot : List FriendRequest :=
  [.friendSync (utf8 "alice") 10 1001 5 (visitOf (.bytes (utf8 "bob")) .missing),
    .friendSync (utf8 "bob") 20 1002 262144 (visitOf .missing .missing)]

def reloginView (service : Service) :
    List Nat × Option (Int × Int) × Option (Int × Int) × Lists × Lists :=
  (service.sessionFriendsCache 5,
    (service.onlineSessions 1004).map fun session => (session.uid, session.sid),
    (service.onlineSessions 1003).map fun session => (session.uid, session.sid),
    service.lastLoaded 10, service.lastLoaded 30)

end Service

end Pttbbs.FriendSvc
