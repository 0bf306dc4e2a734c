/-
The read marks of a user.

The marks of all boards are packed into one buffer: for every board its number,
a count, and that many pairs of the times an article was created and modified.
The record of the board that was used last comes first.  The marks of the
current board are kept in a list of their own and written back into the buffer
when the user leaves the board.
-/

import Pttbbs.Lib.Bytes

namespace Pttbbs.Mbbsd.ReadMarks

open Pttbbs.Lib

def brcMaxSize : Nat := 65536
def brcMaxNum : Nat := 80
def brcBlockSize : Nat := 1024

def headerSize : Nat := 6

def recSize : Nat := 8

structure BrcRec where
  create : UInt32
  modified : UInt32
deriving DecidableEq, Repr

def recordSize (num : Nat) : Nat := headerSize + num * recSize

/-! ### Bytes -/

def littleEndian (width value : Nat) : Bytes := (bigEndian width value).reverse

def fromLittleEndian (bytes : Bytes) : Nat := fromBigEndian bytes.reverse

def BrcRec.bytes (entry : BrcRec) : Bytes :=
  littleEndian 4 entry.create.toNat ++ littleEndian 4 entry.modified.toNat

def recordBytes (bid : UInt32) (list : List BrcRec) : Bytes :=
  littleEndian 4 bid.toNat ++ littleEndian 2 list.length ++ list.flatMap BrcRec.bytes

def brcReadBid (record : Bytes) : UInt32 := UInt32.ofNat (fromLittleEndian (record.take 4))

def brcReadNum (record : Bytes) : Nat := fromLittleEndian ((record.drop 4).take 2)

def readRec (bytes : Bytes) : BrcRec :=
  { create := UInt32.ofNat (fromLittleEndian (bytes.take 4))
    modified := UInt32.ofNat (fromLittleEndian ((bytes.drop 4).take 4)) }

def readRecs : Nat → Bytes → List BrcRec
  | 0, _ => []
  | num + 1, bytes => readRec bytes :: readRecs num (bytes.drop recSize)

/-- Memory in which `count` bytes have been moved from `source` to `target`. -/
def memmove (memory : Bytes) (target source count : Nat) : Bytes :=
  memory.take target ++ (memory.drop source).take count ++ memory.drop (target + count)

def memwrite (memory : Bytes) (target : Nat) (bytes : Bytes) : Bytes :=
  memory.take target ++ bytes ++ memory.drop (target + bytes.length)

/-! ### The state -/

structure Brc where
  /-- The allocated memory, `brc_alloc` bytes; empty while `brc_buf` is null. -/
  buf : Bytes := []
  size : Nat := 0
  currbid : UInt32 := 0
  /-- `brc_list` with its `brc_num` entries. -/
  list : List BrcRec := []
  changed : Bool := false

structure Session where
  expireTime : UInt32
  userlevel : Bool := true
  /-- What fresh memory holds. -/
  fresh : Nat → UInt8 := fun _ => 0

namespace Brc

def alloc (brc : Brc) : Nat := brc.buf.length

def content (brc : Brc) : Bytes := brc.buf.take brc.size

end Brc

/-! ### Searching -/

/-- What `brc_findrecord_in` returns: the place and the count of a record, or the number
of dangling bytes. -/
inductive Search where
  | found (offset num : Nat)
  | missing (dangling : Nat)
deriving DecidableEq, Repr

/-- The loop of `brc_findrecord_in`; every turn takes at least a header, so the length of
the bytes is enough fuel. -/
def findRecordFrom (bid : UInt32) : Nat → Nat → Bytes → Search
  | 0, _, _ => .missing 0
  | fuel + 1, offset, rest =>
      if headerSize < rest.length then
        let num := brcReadNum rest
        if rest.length < recordSize num then .missing rest.length
        else if brcReadBid rest = bid then .found offset num
        else findRecordFrom bid fuel (offset + recordSize num) (rest.drop (recordSize num))
      else .missing 0

def brcFindRecordIn (content : Bytes) (bid : UInt32) : Search :=
  findRecordFrom bid content.length 0 content

def brcFindRecord (brc : Brc) (bid : UInt32) : List BrcRec :=
  match brcFindRecordIn brc.content bid with
  | .found offset num => readRecs num (brc.content.drop (offset + headerSize))
  | .missing _ => []

/-! ### Memory -/

def freshBytes (session : Session) (start count : Nat) : Bytes :=
  (List.range count).map fun index => session.fresh (start + index)

def enlargeFor (session : Session) (needed : Nat) : Nat → Bytes → Bytes
  | 0, buf => buf
  | fuel + 1, buf =>
      if buf.length < needed ∧ buf.length < brcMaxSize then
        enlargeFor session needed fuel (buf ++ freshBytes session buf.length brcBlockSize)
      else buf

def brcGetBuf (session : Session) (size : Nat) : Bytes :=
  let wanted :=
    if size = 0 then brcBlockSize else (size + brcBlockSize - 1) / brcBlockSize * brcBlockSize
  freshBytes session 0 (min wanted brcMaxSize)

/-! ### Compaction -/

/-- The record nearest to the end that the search of `brc_compact` accepts, or that of
`brc_compact_tail_drop`, which accepts every record: its place and its count. -/
def lastRecordFrom (accepts : UInt32 → Nat → Bool) :
    Nat → Nat → Bytes → Option (Nat × Nat) → Option (Nat × Nat)
  | 0, _, _, last => last
  | fuel + 1, offset, rest, last =>
      if headerSize < rest.length then
        let num := brcReadNum rest
        if rest.length < recordSize num then last
        else
          lastRecordFrom accepts fuel (offset + recordSize num) (rest.drop (recordSize num))
            (if accepts (brcReadBid rest) num then some (offset, num) else last)
      else last

def lastRecord (accepts : UInt32 → Nat → Bool) (content : Bytes) : Option (Nat × Nat) :=
  lastRecordFrom accepts content.length 0 content none

def Brc.cut (brc : Brc) (offset num : Nat) : Brc :=
  let tail := offset + recordSize num
  let written := memwrite brc.buf (offset + 4) (littleEndian 2 1)
  { brc with
    buf := memmove written (offset + recordSize 1) tail (brc.size - tail)
    size := brc.size - (recordSize num - recordSize 1) }

def brcCompact (needed : Nat) (protectBid : UInt32) : Nat → Brc → Brc
  | 0, brc => brc
  | fuel + 1, brc =>
      if brcMaxSize < brc.size + needed ∧ 0 < brc.size then
        match lastRecord (fun bid num => bid ≠ protectBid && 1 < num) brc.content with
        | none => brc
        | some (offset, num) => brcCompact needed protectBid fuel (brc.cut offset num)
      else brc

def brcCompactTailDrop (needed : Nat) : Nat → Brc → Brc
  | 0, brc => brc
  | fuel + 1, brc =>
      if brcMaxSize < brc.size + needed ∧ 0 < brc.size then
        match lastRecord (fun _ _ => true) brc.content with
        | none => brc
        | some (offset, _) => brcCompactTailDrop needed fuel { brc with size := offset }
      else brc

/-! ### Writing -/

/-- `brc_putrecord` at the beginning of the buffer, with room for `endp` bytes. -/
def brcPutRecord (session : Session) (buf : Bytes) (endp : Nat) (bid : UInt32)
    (list : List BrcRec) : Bytes :=
  match list with
  | [] => buf
  | first :: _ =>
      if session.expireTime < first.create ∧ headerSize < endp then
        let kept := list.take brcMaxNum
        let headed :=
          memwrite buf 0 (littleEndian 4 bid.toNat ++ littleEndian 2 kept.length)
        if recordSize kept.length ≤ endp then
          memwrite headed headerSize (kept.flatMap BrcRec.bytes)
        else headed
      else buf

/-- The entries at the end of a list that are before the expiry time are not written. -/
def trim (session : Session) (list : List BrcRec) : List BrcRec :=
  (list.reverse.dropWhile fun entry => entry.create < session.expireTime).reverse

/-- The record of the board is taken out, or dangling bytes are cut off. -/
def Brc.takeOut (brc : Brc) : Search → Brc
  | .found offset num =>
      let tail := offset + recordSize num
      { brc with
        buf := memmove brc.buf offset tail (brc.size - tail)
        size := brc.size - recordSize num }
  | .missing dangling => { brc with size := brc.size - dangling }

def Brc.putInFront (session : Session) (bid : UInt32) (list : List BrcRec) (brc : Brc) : Brc :=
  let full := recordSize list.length
  let compacted :=
    if brcMaxSize < brc.size + full then brcCompact full bid brc.size brc else brc
  let kept := if brcMaxSize < compacted.size + full ∧ 1 < list.length then list.take 1 else list
  let newSize := recordSize kept.length
  let buf := if compacted.buf = [] then brcGetBuf session newSize else compacted.buf
  let enlarged :=
    { compacted with buf := enlargeFor session (compacted.size + newSize) brcMaxSize buf }
  let dropped :=
    if brcMaxSize < enlarged.size + newSize then
      brcCompactTailDrop newSize enlarged.size enlarged
    else enlarged
  if dropped.size + newSize ≤ brcMaxSize then
    { dropped with
      buf := brcPutRecord session (memmove dropped.buf newSize 0 dropped.size) newSize bid kept
      size := dropped.size + newSize }
  else dropped

def brcInsertRecord (session : Session) (bid : UInt32) (list : List BrcRec) (brc : Brc) : Brc :=
  let search := brcFindRecordIn brc.content bid
  let kept := trim session list
  let newSize := if kept = [] then 0 else recordSize kept.length
  let inPlace : Bool :=
    match search with
    | .found offset num => offset = 0 && newSize = recordSize num
    | .missing _ => false
  if inPlace then
    { brc with
      buf := brcPutRecord session brc.buf newSize bid kept
      changed := false }
  else
    let out := brc.takeOut search
    if kept = [] then { out with changed := false }
    else { out.putInFront session bid kept with changed := false }

/-! ### What the program calls -/

def brcUpdate (session : Session) (brc : Brc) : Brc :=
  if brc.currbid ≠ 0 ∧ brc.changed ∧ session.userlevel ∧ brc.list ≠ [] then
    brcInsertRecord session brc.currbid brc.list brc
  else brc

/-- `brc_read_record`: a board without a record has read nothing, which is an entry with
the time 1; its modification time is what the list held before. -/
def brcReadRecord (bid : UInt32) (brc : Brc) : List BrcRec :=
  match brcFindRecordIn brc.content bid with
  | .found offset num => readRecs num (brc.content.drop (offset + headerSize))
  | .missing _ => [{ create := 1, modified := (brc.list.head?.map BrcRec.modified).getD 0 }]

def brcInitialBoard (session : Session) (bid : UInt32) (brc : Brc) : Brc :=
  if brc.currbid = bid then brc
  else
    let updated := brcUpdate session brc
    { updated with currbid := bid, list := brcReadRecord bid updated }

def brcTrunc (session : Session) (bid ftime : UInt32) (brc : Brc) : Brc :=
  let entry : BrcRec := { create := ftime, modified := ftime }
  let inserted := brcInsertRecord session bid [entry] brc
  if bid = brc.currbid then { inserted with list := [entry], changed := false } else inserted

def brcToggleAllRead (session : Session) (bid : UInt32) (isAllRead : Bool) (now : UInt32)
    (brc : Brc) : Brc :=
  if isAllRead then brcTrunc session bid now brc else brcTrunc session bid 1 brc

def brcToggleRead (session : Session) (bid newtime : UInt32) (brc : Brc) : Brc :=
  brcTrunc session bid newtime brc

def time4IsInvalid (time : UInt32) : Bool := time = 0 || time = 0xffffffff

/-- The search of `brc_addlist` through the list; `none` where nothing changes. -/
def addTo (entry : BrcRec) : List BrcRec → Option (List BrcRec)
  | [] => none
  | first :: rest =>
      if entry.create = first.create then
        if time4IsInvalid entry.modified then none
        else
          let known := if time4IsInvalid first.modified then 0 else first.modified
          if known < entry.modified then some ({ first with modified := entry.modified } :: rest)
          else none
      else if first.create < entry.create then some (entry :: first :: rest)
      else (addTo entry rest).map (first :: ·)

def brcAddlist (session : Session) (entry : BrcRec) (brc : Brc) : Brc :=
  if !session.userlevel then brc
  else if entry.create ≤ session.expireTime then brc
  else
    match brc.list with
    | [] => { brc with list := [entry], changed := true }
    | [only] =>
        if entry.create < only.create then brc
        else
          match addTo entry [only] with
          | none => brc
          | some list => { brc with list := list.take brcMaxNum, changed := true }
    | list =>
        match addTo entry list with
        | none => brc
        | some list => { brc with list := list.take brcMaxNum, changed := true }

/-- The search of `brc_unread_time` through a list that is not empty. -/
def unreadIn (ftime modified : UInt32) : List BrcRec → Nat
  | [] => 0
  | first :: rest =>
      if first.create < ftime then 1
      else if ftime = first.create then
        if modified = 0 ∨ first.modified = 0 then 0
        else if time4IsInvalid modified ∨ time4IsInvalid first.modified then 0
        else if first.modified < modified then 2 else 0
      else unreadIn ftime modified rest

def brcUnreadTime (session : Session) (brc : Brc) (bid ftime modified : UInt32) : Nat :=
  if ftime ≤ session.expireTime then 0
  else
    let list := if brc.currbid ≠ 0 ∧ bid = brc.currbid then brc.list else brcFindRecord brc bid
    if list = [] then 1 else unreadIn ftime modified list

/-- What `brc_search_read` returns: -1, 0, or 1 with the time in `result`. -/
inductive ReadSearch where
  | noRecord
  | notFound
  | found (result : UInt32)
deriving DecidableEq, Repr

/-- The label `return_newer`: the entry before the one the loop has reached. -/
def returnNewer : Option BrcRec → ReadSearch
  | none => .notFound
  | some newer => .found newer.create

/-- The loop of `brc_search_read`; `newer` is the entry it has passed last. -/
def searchReadFrom (ftime : UInt32) (forward : Bool) : Option BrcRec → List BrcRec → ReadSearch
  | newer, [] => if forward then returnNewer newer else .notFound
  | newer, first :: rest =>
      if first.create < ftime then
        if forward then returnNewer newer else .found first.create
      else if ftime = first.create then
        if forward then returnNewer newer
        else
          match rest with
          | [] => .notFound
          | older :: _ => .found older.create
      else searchReadFrom ftime forward (some first) rest

def brcListOf (brc : Brc) (bid : UInt32) : List BrcRec :=
  if brc.currbid ≠ 0 ∧ bid = brc.currbid then brc.list else brcFindRecord brc bid

def brcSearchRead (brc : Brc) (bid ftime : UInt32) (forward : Bool) : ReadSearch :=
  match brcListOf brc bid with
  | [] => .noRecord
  | [only] => if only.create = 1 then .noRecord else searchReadFrom ftime forward none [only]
  | list => searchReadFrom ftime forward none list

end Pttbbs.Mbbsd.ReadMarks
