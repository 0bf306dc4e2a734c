/-
The hash of user ids in shared memory.

Every user number has an id and stands in the chain of the hash of that id.  Renaming
a user takes the number out of the old chain and puts it in front of the new one.
Nothing here runs concurrently: the compare-and-swap of each update succeeds at once.
-/

import Mathlib.Data.Fintype.Card
import Pttbbs.Lib.Bytes
import Pttbbs.Lib.Chains

namespace Pttbbs.Common.UserHash

open Pttbbs.Lib

/-! ### Ids -/

def idLen : Nat := 12

def hashBits : Nat := 16

def toupper (byte : UInt8) : UInt8 := if 97 ≤ byte ∧ byte ≤ 122 then byte - 32 else byte

def tolower (byte : UInt8) : UInt8 := if 65 ≤ byte ∧ byte ≤ 90 then byte + 32 else byte

/-- `strcasecmp(left, right) == 0`, on the bytes before the terminators. -/
def sameCaseless (left right : Bytes) : Bool := left.map tolower = right.map tolower

def fnv1a32Strcase (text : Bytes) (hval : UInt32) : UInt32 :=
  text.foldl (fun hval byte => (hval ^^^ (toupper byte).toUInt32) * 0x01000193) hval

def stringHash (text : Bytes) : UInt32 := fnv1a32Strcase text 33554467

abbrev Bucket : Type := Fin (2 ^ hashBits)

/-- `StringHash(id) % (1 << HASH_BITS)`. -/
def bucketOf (id : Bytes) : Bucket :=
  ⟨(stringHash id).toNat % 2 ^ hashBits, Nat.mod_lt _ (Nat.two_pow_pos _)⟩

theorem toupper_tolower (byte : UInt8) : toupper (tolower byte) = toupper byte := by
  unfold toupper tolower
  have below := byte.toNat_lt
  split <;> split <;> simp_all [UInt8.le_iff_toNat_le, UInt8.ext_iff] <;> omega

theorem fnv1a32Strcase_tolower (text : Bytes) (hval : UInt32) :
    fnv1a32Strcase (text.map tolower) hval = fnv1a32Strcase text hval := by
  unfold fnv1a32Strcase
  rw [List.foldl_map]
  simp only [toupper_tolower]

theorem bucketOf_congr {left right : Bytes} (same : sameCaseless left right = true) :
    bucketOf left = bucketOf right := by
  have lowered : left.map tolower = right.map tolower := of_decide_eq_true same
  have hashes : stringHash left = stringHash right := by
    unfold stringHash
    rw [← fnv1a32Strcase_tolower left, lowered, fnv1a32Strcase_tolower]
  unfold bucketOf
  simp only [hashes]

/-! ### The table -/

section Table

variable {maxUsers : Nat}

/-- The part of shared memory that holds the hash. -/
structure Shm (maxUsers : Nat) where
  userid : Fin maxUsers → Bytes
  nextInHash : Fin maxUsers → Int
  hashHead : Bucket → Int

/-- A number that the loops follow; anything else ends a chain. -/
def slot (maxUsers : Nat) (number : Int) : Option (Fin maxUsers) :=
  if inRange : 0 ≤ number ∧ number < maxUsers then
    some ⟨number.toNat, by omega⟩
  else none

theorem slot_number (n : Fin maxUsers) : slot maxUsers (n.val : Int) = some n := by
  unfold slot
  rw [dif_pos ⟨Int.natCast_nonneg _, Int.ofNat_lt.mpr n.isLt⟩]
  rfl

namespace Shm

def successor (shm : Shm maxUsers) (n : Fin maxUsers) : Option (Fin maxUsers) :=
  slot maxUsers (shm.nextInHash n)

def first (shm : Shm maxUsers) (bucket : Bucket) : Option (Fin maxUsers) :=
  slot maxUsers (shm.hashHead bucket)

def bucket (shm : Shm maxUsers) (n : Fin maxUsers) : Bucket := bucketOf (shm.userid n)

/-- The bucket is that of the id as given, the stored id is cut to its field. -/
def addToUhash (shm : Shm maxUsers) (n : Fin maxUsers) (id : Bytes) : Shm maxUsers :=
  { userid := Function.update shm.userid n (id.take idLen)
    nextInHash := Function.update shm.nextInHash n (shm.hashHead (bucketOf id))
    hashHead := Function.update shm.hashHead (bucketOf id) n.val }

def removeFromUhash (shm : Shm maxUsers) (n : Fin maxUsers) : Shm maxUsers :=
  match shm.first (shm.bucket n) with
  | none => shm
  | some head =>
      if head = n then
        { shm with
          hashHead := Function.update shm.hashHead (shm.bucket n) (shm.nextInHash n) }
      else
        match seek shm.successor (fun previous => shm.successor previous = some n) maxUsers
            (some head) with
        | none => shm
        | some previous =>
            { shm with
              nextInHash := Function.update shm.nextInHash previous (shm.nextInHash n) }

/-- User numbers count from one; the function ignores numbers out of range. -/
def setuserid (shm : Shm maxUsers) (num : Int) (id : Bytes) : Shm maxUsers :=
  match slot maxUsers (num - 1) with
  | none => shm
  | some n => (shm.removeFromUhash n).addToUhash n id

def dosearchuser (shm : Shm maxUsers) (userid : Bytes) : Nat × Option Bytes :=
  match seek shm.successor (fun n => sameCaseless (shm.userid n) userid) maxUsers
      (shm.first (bucketOf userid)) with
  | none => (0, none)
  | some n => (n.val + 1, if userid = [] then none else some (shm.userid n))

def searchuser (shm : Shm maxUsers) (userid : Bytes) : Nat × Option Bytes :=
  if userid = [] then (0, none) else shm.dosearchuser userid

end Shm

end Table

/-! ### The chains -/

section Chains

variable {maxUsers : Nat}

/-- The numbers in each chain, without repetition: all but the absent ones, each in the
chain of its id. -/
structure Chained (shm : Shm maxUsers) (absent : Fin maxUsers → Prop)
    (chains : Bucket → List (Fin maxUsers)) : Prop where
  linked : ∀ bucket, Linked shm.successor (shm.first bucket) (chains bucket)
  single : ∀ bucket, (chains bucket).Nodup
  placed : ∀ n bucket, n ∈ chains bucket ↔ ¬ absent n ∧ bucket = shm.bucket n

/-- Every user number is in exactly one chain, once, that of its id. -/
def Hashed (shm : Shm maxUsers) : Prop := ∃ chains, Chained shm (fun _ => False) chains

theorem chain_length_le {chain : List (Fin maxUsers)} (single : chain.Nodup) :
    chain.length ≤ maxUsers := by
  have bound := single.length_le_card
  rwa [Fintype.card_fin] at bound

variable {shm : Shm maxUsers} {absent : Fin maxUsers → Prop}
  {chains : Bucket → List (Fin maxUsers)}

theorem successor_write (shm : Shm maxUsers) (n : Fin maxUsers) (number : Int) :
    Shm.successor { shm with nextInHash := Function.update shm.nextInHash n number } =
      Function.update shm.successor n (slot maxUsers number) :=
  Function.comp_update (slot maxUsers) shm.nextInHash n number

theorem Chained.without {after : Shm maxUsers} {n : Fin maxUsers}
    (chained : Chained shm (fun _ => False) chains) (chain : List (Fin maxUsers)) (ids : after.userid = shm.userid)
    (linked : Linked after.successor (after.first (shm.bucket n)) chain)
    (others : ∀ bucket, bucket ≠ shm.bucket n →
      Linked after.successor (after.first bucket) (chains bucket))
    (single : chain.Nodup) (rest : ∀ other, other ∈ chain ↔
      other ≠ n ∧ other ∈ chains (shm.bucket n)) :
    ∃ chains', Chained after (fun other => other = n) chains' := by
  refine ⟨Function.update chains (shm.bucket n) chain, ?_, ?_, ?_⟩
  · intro bucket
    by_cases here : bucket = shm.bucket n
    · rw [here, Function.update_self]
      exact linked
    · rw [Function.update_of_ne here]
      exact others bucket here
  · intro bucket
    by_cases here : bucket = shm.bucket n
    · rw [here, Function.update_self]
      exact single
    · rw [Function.update_of_ne here]
      exact chained.single bucket
  · intro other bucket
    have kept : after.bucket other = shm.bucket other := by
      unfold Shm.bucket
      rw [ids]
    rw [kept]
    by_cases here : bucket = shm.bucket n
    · rw [here, Function.update_self, rest, chained.placed]
      simp
    · rw [Function.update_of_ne here, chained.placed]
      constructor
      · rintro ⟨_, placed⟩
        refine ⟨?_, placed⟩
        intro same
        exact here (same ▸ placed)
      · rintro ⟨_, placed⟩
        exact ⟨id, placed⟩

theorem Chained.remove (chained : Chained shm (fun _ => False) chains) (n : Fin maxUsers) :
    ∃ chains', Chained (shm.removeFromUhash n) (fun other => other = n) chains' := by
  have inside : n ∈ chains (shm.bucket n) := (chained.placed n _).mpr ⟨id, rfl⟩
  have linked := chained.linked (shm.bucket n)
  have single := chained.single (shm.bucket n)
  unfold Shm.removeFromUhash
  generalize firstHere : shm.first (shm.bucket n) = head at linked ⊢
  generalize whole : chains (shm.bucket n) = chain at linked single inside
  cases linked with
  | done => cases inside
  | @link head rest tail =>
      dsimp only
      by_cases atHead : head = n
      · -- The head of the chain moves on to the successor.
        rw [if_pos atHead]
        refine chained.without rest rfl ?_ ?_ ?_ ?_
        · change Linked shm.successor (slot maxUsers (Function.update shm.hashHead
            (shm.bucket n) (shm.nextInHash n) (shm.bucket n))) rest
          rw [Function.update_self, ← atHead]
          exact tail
        · intro bucket other
          change Linked shm.successor (slot maxUsers (Function.update shm.hashHead
            (shm.bucket n) (shm.nextInHash n) bucket)) _
          rw [Function.update_of_ne other]
          exact chained.linked bucket
        · exact (List.nodup_cons.mp single).2
        · intro other
          rw [whole, List.mem_cons, atHead]
          have outside := (List.nodup_cons.mp single).1
          rw [atHead] at outside
          constructor
          · intro member
            exact ⟨fun same => outside (same ▸ member), Or.inr member⟩
          · rintro ⟨different, same | member⟩
            · exact absurd same different
            · exact member
      · -- The predecessor is found within the walk and redirected.
        have later : n ∈ rest := by
          rcases List.mem_cons.mp inside with same | later
          · exact absurd same.symm atHead
          · exact later
        have linked : Linked shm.successor (some head) (head :: rest) := Linked.link tail
        obtain ⟨front, previous, back, shape, found⟩ := linked.find_predecessor single later
        rw [if_neg atHead, linked.seek_eq _ (chain_length_le single), found]
        dsimp only
        have previousHere : previous ∈ chains (shm.bucket n) := by
          rw [whole, shape]
          exact List.mem_append_right _ List.mem_cons_self
        rw [shape] at linked single
        refine chained.without (front ++ previous :: back) rfl ?_ ?_ ?_ ?_
        · rw [successor_write]
          change Linked _ (shm.first (shm.bucket n)) _
          rw [firstHere]
          exact linked.unlink single
        · intro bucket other
          rw [successor_write]
          apply (chained.linked bucket).update
          intro member
          exact other ((chained.placed previous bucket).mp member |>.2.trans
            ((chained.placed previous _).mp previousHere).2.symm)
        · exact single.sublist ((List.sublist_cons_self n back).cons_cons previous
            |>.append_left front)
        · intro other
          rw [whole, shape]
          have outside : n ∉ front ++ previous :: back := by
            have moved := List.nodup_middle.mp
              ((List.append_cons front previous (n :: back) ▸ single :
                (front ++ [previous] ++ n :: back).Nodup))
            rw [List.append_assoc] at moved
            exact (List.nodup_cons.mp moved).1
          simp only [List.mem_append, List.mem_cons] at outside ⊢
          constructor
          · intro member
            refine ⟨?_, ?_⟩
            · intro same
              exact outside (same ▸ member)
            · rcases member with before | same | after
              · exact Or.inl before
              · exact Or.inr (Or.inl same)
              · exact Or.inr (Or.inr (Or.inr after))
          · rintro ⟨different, before | same | now | after⟩
            · exact Or.inl before
            · exact Or.inr (Or.inl same)
            · exact absurd now different
            · exact Or.inr (Or.inr after)

theorem Chained.add {n : Fin maxUsers} {id : Bytes}
    (chained : Chained shm (fun other => other = n) chains) (short : id.length ≤ idLen) :
    Chained (shm.addToUhash n id) (fun _ => False)
      (Function.update chains (bucketOf id) (n :: chains (bucketOf id))) := by
  have outside : ∀ bucket, n ∉ chains bucket := fun bucket member =>
    ((chained.placed n bucket).mp member).1 rfl
  have stored : (shm.addToUhash n id).bucket n = bucketOf id := by
    change bucketOf (Function.update shm.userid n (id.take idLen) n) = _
    rw [Function.update_self, List.take_of_length_le short]
  have others : ∀ other, other ≠ n → (shm.addToUhash n id).bucket other = shm.bucket other := by
    intro other different
    change bucketOf (Function.update shm.userid n (id.take idLen) other) = _
    rw [Function.update_of_ne different]
    rfl
  have successors : (shm.addToUhash n id).successor =
      Function.update shm.successor n (shm.first (bucketOf id)) :=
    successor_write shm n (shm.hashHead (bucketOf id))
  refine ⟨?_, ?_, ?_⟩
  · intro bucket
    rw [successors]
    change Linked _ (slot maxUsers (Function.update shm.hashHead (bucketOf id) n.val bucket)) _
    by_cases here : bucket = bucketOf id
    · rw [here, Function.update_self, Function.update_self, slot_number]
      exact (chained.linked _).push (outside _)
    · rw [Function.update_of_ne here, Function.update_of_ne here]
      exact (chained.linked bucket).update (outside bucket) _
  · intro bucket
    by_cases here : bucket = bucketOf id
    · rw [here, Function.update_self]
      exact List.nodup_cons.mpr ⟨outside _, chained.single _⟩
    · rw [Function.update_of_ne here]
      exact chained.single bucket
  · intro other bucket
    by_cases same : other = n
    · rw [same, stored]
      by_cases here : bucket = bucketOf id
      · simp [here]
      · simp [here, outside bucket]
    · rw [others other same]
      by_cases here : bucket = bucketOf id
      · rw [here, Function.update_self, List.mem_cons, chained.placed]
        simp [same]
      · rw [Function.update_of_ne here, chained.placed]
        simp [same]

theorem setuserid_hashed {num : Int} {id : Bytes} (hashed : Hashed shm)
    (short : id.length ≤ idLen) : Hashed (shm.setuserid num id) := by
  unfold Shm.setuserid
  split
  · exact hashed
  · rename_i n _
    obtain ⟨chains, chained⟩ := hashed
    obtain ⟨chains', without⟩ := chained.remove n
    exact ⟨_, without.add short⟩

theorem setuserid_userid (shm : Shm maxUsers) {num : Int} {n : Fin maxUsers} (id : Bytes)
    (inRange : slot maxUsers (num - 1) = some n) :
    (shm.setuserid num id).userid = Function.update shm.userid n (id.take idLen) := by
  have kept : (shm.removeFromUhash n).userid = shm.userid := by
    unfold Shm.removeFromUhash
    split
    · rfl
    · split
      · rfl
      · split <;> rfl
  unfold Shm.setuserid
  rw [inRange, ← kept]
  rfl

def Shm.setuserids (shm : Shm maxUsers) (calls : List (Int × Bytes)) : Shm maxUsers :=
  calls.foldl (fun shm call => shm.setuserid call.1 call.2) shm

theorem setuserids_hashed {calls : List (Int × Bytes)} (hashed : Hashed shm)
    (short : ∀ call ∈ calls, call.2.length ≤ idLen) : Hashed (shm.setuserids calls) := by
  induction calls generalizing shm with
  | nil => exact hashed
  | cons call rest ih =>
      apply ih
      · exact setuserid_hashed hashed (short call List.mem_cons_self)
      · intro later member
        exact short later (List.mem_cons_of_mem _ member)

/-! ### Looking an id up -/

theorem dosearchuser_of_chained (chained : Chained shm (fun _ => False) chains)
    (userid : Bytes) :
    shm.dosearchuser userid =
      match (chains (bucketOf userid)).find? (fun n => sameCaseless (shm.userid n) userid) with
      | none => (0, none)
      | some n => (n.val + 1, if userid = [] then none else some (shm.userid n)) := by
  unfold Shm.dosearchuser
  rw [(chained.linked _).seek_eq _ (chain_length_le (chained.single _))]

theorem dosearchuser_pos_iff (hashed : Hashed shm) (userid : Bytes) :
    0 < (shm.dosearchuser userid).1 ↔ ∃ n, sameCaseless (shm.userid n) userid = true := by
  obtain ⟨chains, chained⟩ := hashed
  rw [dosearchuser_of_chained chained]
  constructor
  · intro positive
    split at positive
    · exact absurd positive (Nat.lt_irrefl 0)
    · rename_i n found
      have same := List.find?_some found
      exact ⟨n, same⟩
  · rintro ⟨n, same⟩
    split
    · rename_i missing
      have member : n ∈ chains (bucketOf userid) :=
        (chained.placed n _).mpr ⟨id, (bucketOf_congr same).symm⟩
      exact absurd same (List.find?_eq_none.mp missing n member)
    · exact Nat.succ_pos _

/-- The search finds a number exactly when some user has the id, and then one of these. -/
def FindsExactly (shm : Shm maxUsers) (userid : Bytes) : Prop :=
  (0 < (shm.searchuser userid).1 ↔ ∃ n, sameCaseless (shm.userid n) userid = true) ∧
  (0 < (shm.searchuser userid).1 → ∃ n : Fin maxUsers,
    (shm.searchuser userid).1 = n.val + 1 ∧ sameCaseless (shm.userid n) userid = true)

theorem findsExactly_of_hashed (hashed : Hashed shm) {userid : Bytes} (named : userid ≠ []) :
    FindsExactly shm userid := by
  unfold FindsExactly Shm.searchuser
  rw [if_neg named]
  refine ⟨dosearchuser_pos_iff hashed userid, ?_⟩
  obtain ⟨chains, chained⟩ := hashed
  rw [dosearchuser_of_chained chained]
  intro positive
  split at positive
  · exact absurd positive (Nat.lt_irrefl 0)
  · rename_i n found
    have same := List.find?_some found
    exact ⟨n, rfl, same⟩

/-- Whatever the numbers are renamed to, the chains stay a partition of them by their
ids, and a search for an id that is not empty finds it exactly when it is in use. -/
theorem userHash_run (shm : Shm maxUsers) (hashed : Hashed shm) (calls : List (Int × Bytes))
    (short : ∀ call ∈ calls, call.2.length ≤ idLen) :
    Hashed (shm.setuserids calls) ∧
      (∀ userid, userid ≠ [] → FindsExactly (shm.setuserids calls) userid) ∧
      ((shm.setuserids calls).searchuser []).1 = 0 := by
  have after := setuserids_hashed hashed short
  refine ⟨after, ?_, rfl⟩
  intro userid named
  exact findsExactly_of_hashed after named

/-! ### A hash without users -/

def freshHash (maxUsers : Nat) : Shm maxUsers where
  userid _ := []
  nextInHash n := n.val - 1
  hashHead bucket := if bucket = bucketOf [] then maxUsers - 1 else -1

def descending : (count : Nat) → count ≤ maxUsers → List (Fin maxUsers)
  | 0, _ => []
  | count + 1, inRange =>
      ⟨count, inRange⟩ :: descending count (Nat.le_of_succ_le inRange)

theorem mem_descending {count : Nat} (inRange : count ≤ maxUsers) (n : Fin maxUsers) :
    n ∈ descending count inRange ↔ n.val < count := by
  induction count with
  | zero => simp [descending]
  | succ count ih =>
      rw [descending, List.mem_cons, ih, Fin.ext_iff]
      dsimp only
      omega

theorem descending_nodup {count : Nat} (inRange : count ≤ maxUsers) :
    (descending count inRange).Nodup := by
  induction count with
  | zero => exact List.nodup_nil
  | succ count ih =>
      rw [descending, List.nodup_cons, mem_descending]
      exact ⟨Nat.lt_irrefl count, ih _⟩

theorem descending_linked {count : Nat} (inRange : count ≤ maxUsers) :
    Linked (freshHash maxUsers).successor (slot maxUsers ((count : Int) - 1))
      (descending count inRange) := by
  induction count with
  | zero =>
      have outside : slot maxUsers ((0 : Nat) - 1 : Int) = none := by
        unfold slot
        rw [dif_neg (by omega)]
      rw [outside]
      exact Linked.done
  | succ count ih =>
      have here : slot maxUsers ((count + 1 : Nat) - 1 : Int) = some ⟨count, inRange⟩ := by
        have number : ((count + 1 : Nat) - 1 : Int) = count := by omega
        rw [number]
        exact slot_number ⟨count, inRange⟩
      rw [here]
      exact Linked.link (ih (Nat.le_of_succ_le inRange))

theorem freshHash_hashed (maxUsers : Nat) : Hashed (freshHash maxUsers) := by
  refine ⟨fun bucket => if bucket = bucketOf [] then descending maxUsers (Nat.le_refl _) else [],
    ?_, ?_, ?_⟩
  · intro bucket
    unfold Shm.first freshHash
    dsimp only
    split
    · exact descending_linked (Nat.le_refl _)
    · have outside : slot maxUsers (-1) = none := by
        unfold slot
        rw [dif_neg (by omega)]
      rw [outside]
      exact Linked.done
  · intro bucket
    split
    · exact descending_nodup _
    · exact List.nodup_nil
  · intro n bucket
    change _ ↔ _ ∧ bucket = bucketOf []
    split
    · rename_i here
      rw [mem_descending]
      exact ⟨fun _ => ⟨id, here⟩, fun _ => n.isLt⟩
    · rename_i other
      constructor
      · intro member
        cases member
      · rintro ⟨_, here⟩
        exact absurd here other

/-- Numbers without a user have the empty id, but a search for it finds none. -/
theorem empty_id_not_found :
    ¬ ∀ (maxUsers : Nat) (shm : Shm maxUsers), Hashed shm → ∀ calls : List (Int × Bytes),
        (∀ call ∈ calls, call.2.length ≤ idLen) →
        Hashed (shm.setuserids calls) ∧ ∀ userid, FindsExactly (shm.setuserids calls) userid := by
  intro all
  have finds := (all 150000 (freshHash 150000) (freshHash_hashed _) [] (by simp)).2 []
  have positive := finds.1.mpr ⟨⟨0, by decide⟩, rfl⟩
  exact absurd positive (Nat.lt_irrefl 0)

/-- A name is given out, given up and given out to another number in another case. -/
theorem renamed_user_found :
    let after := (freshHash 150000).setuserids [(1, utf8 "SYSOP"), (1, []), (2, utf8 "sysop")]
    Hashed after ∧ 0 < (after.searchuser (utf8 "SysOp")).1 := by
  have run := userHash_run (freshHash 150000) (freshHash_hashed _)
    [(1, utf8 "SYSOP"), (1, []), (2, utf8 "sysop")] (by decide)
  refine ⟨run.1, ?_⟩
  rw [(run.2.1 (utf8 "SysOp") (by decide)).1]
  refine ⟨⟨1, by decide⟩, ?_⟩
  unfold Shm.setuserids
  rw [List.foldl_cons, List.foldl_cons, List.foldl_cons, List.foldl_nil,
    setuserid_userid _ _ (slot_number ⟨1, by decide⟩), Function.update_self]
  decide

end Chains

end Pttbbs.Common.UserHash
