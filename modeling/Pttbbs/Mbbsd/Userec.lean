/-
A user's record in the password file, and what a session changes in it.

A session changes the record of its user by the `pwcu` operations: it reads the
record from the file, changes some fields, and writes the whole record back if
anything changed.  Where the file is kept in another encoding than the memory,
a text that did not change is taken from the file as it is at that moment.
-/

import Mathlib.Data.List.Basic

namespace Pttbbs.Mbbsd

/-- The fields a `pwcu` operation reads or changes; the others are kept together. -/
structure Userec where
  realname : List UInt8 := []
  nickname : List UInt8 := []
  uflag : UInt32 := 0
  userlevel : UInt32 := 0
  numlogindays : UInt32 := 0
  numposts : UInt32 := 0
  firstlogin : UInt32 := 0
  lastlogin : UInt32 := 0
  lasthost : List UInt8 := []
  money : Int := 0
  email : List UInt8 := []
  address : List UInt8 := []
  justify : List UInt8 := []
  pager : UInt8 := 0
  invisible : UInt8 := 0
  u2fa : UInt8 := 0
  exmailbox : UInt32 := 0
  career : List UInt8 := []
  lastseen : UInt32 := 0
  timesetangel : UInt32 := 0
  timeplayangel : UInt32 := 0
  loginview : UInt32 := 0
  vlCount : UInt16 := 0
  fiveWin : UInt16 := 0
  fiveLose : UInt16 := 0
  fiveTie : UInt16 := 0
  chcWin : UInt16 := 0
  chcLose : UInt16 := 0
  chcTie : UInt16 := 0
  uaVersion : UInt8 := 0
  signature : UInt8 := 0
  badpost : UInt8 := 0
  myangel : List UInt8 := []
  chessEloRating : UInt16 := 0
  timeremovebadpost : UInt32 := 0
  timeviolatelaw : UInt32 := 0
  other : List UInt8 := []
deriving DecidableEq, Repr

/-! ### Constants -/

def permPost : UInt32 := 0x8
def permLoginOK : UInt32 := 0x10
def permViolateLaw : UInt32 := 0x20000
def ufFriend : UInt32 := 0x10
def ufBrdSort : UInt32 := 0x20
def ufRejOuttaMail : UInt32 := 0x40000
def ufForeign : UInt32 := 0x100000
def badpostClearDuration : Nat := 180

/-! ### Texts, times and flags -/

/-- The texts are C strings: no byte of them is NUL. -/
def strlcpy (size : Nat) (text : List UInt8) : List UInt8 := text.take (size - 1)

/-- Times are compared as unsigned numbers of 32 bits. -/
def time4DaysElapsed (now start : UInt32) : Nat :=
  if start < now then (now.toNat - start.toNat) / 86400 else 0

def setByBit (var mask : UInt32) (value : Bool) : UInt32 :=
  if value then var ||| mask else var &&& ~~~mask

inductive SigType where
  | chc
  | gomo
deriving DecidableEq, Repr

inductive ChessGameResult where
  | win
  | lost
  | tie
deriving DecidableEq, Repr

/-! ### Operations -/

inductive PwcuOp where
  | bitEnableLevel (mask : UInt32)
  | bitDisableLevel (mask : UInt32)
  | incNumPost
  | decNumPost
  | violateLaw (now : UInt32)
  | saveViolateLaw
  | cancelBadpost (now : UInt32)
  | addExMailBox (m : UInt32)
  | setMyAngel (angel : List UInt8) (now : UInt32)
  | playAngel (now : UInt32)
  | setNickname (nickname : List UInt8)
  | toggleOutMail
  | setLoginView (bits : UInt32)
  | setEmail (email : List UInt8)
  | regCompleteJustify (justify : List UInt8)
  | regCompleteEmailJustify (email justify : List UInt8)
  | regSetTemporaryJustify (justify email : List UInt8)
  | registerSetInfo (rname addr career email : List UInt8) (isForeign : Bool)
  | setUserAgreementVersion (version : UInt8)
  | chessResult (sigType : SigType) (result : ChessGameResult)
  | setChessEloRating (rating : UInt16)
  | toggleUserFlag (mask : UInt32)
  | set2FA (value : UInt8)
  | loginSave (fromhost : List UInt8) (loginStartTime : UInt32) (hidden : Bool)
  | exitSave (pager invisible signature : UInt8)
deriving DecidableEq, Repr

def pwcuToggleSortBoard : PwcuOp := .toggleUserFlag ufBrdSort

def pwcuToggleFriendList : PwcuOp := .toggleUserFlag ufFriend

def scoreResult (result : ChessGameResult) (win lose tie : UInt16) : UInt16 × UInt16 × UInt16 :=
  let recovered := if 0 < lose then lose - 1 else lose
  match result with
  | .win => (win + 1, recovered, tie)
  | .tie => (win, recovered, tie + 1)
  | .lost => (win, lose + 1, tie)

/-- The login is counted once a day, by days from the first; `dayStart` is the
beginning of a day in local time. -/
def loginSaved (dayStart : UInt32 → UInt32) (fromhost : List UInt8) (loginStartTime : UInt32)
    (hidden : Bool) (u : Userec) : Userec :=
  let baseref := dayStart u.firstlogin
  let reftime := if loginStartTime < u.lastlogin then u.lastlogin else loginStartTime
  let regdays := time4DaysElapsed reftime baseref
  let prevRegdays := time4DaysElapsed u.lastlogin baseref
  let capped :=
    if u.numlogindays.toNat > prevRegdays + 1 then UInt32.ofNat (prevRegdays + 1)
    else u.numlogindays
  { u with
    lasthost := strlcpy 16 fromhost
    numlogindays := if regdays > prevRegdays then capped + 1 else capped
    lastlogin := reftime
    lastseen := if hidden then u.lastseen else reftime }

/-- What an operation makes of the record it has read; `none` where it gives up. -/
def PwcuOp.apply (dayStart : UInt32 → UInt32) (u : Userec) : PwcuOp → Option Userec
  | .bitEnableLevel mask => some { u with userlevel := u.userlevel ||| mask }
  | .bitDisableLevel mask => some { u with userlevel := u.userlevel &&& ~~~mask }
  | .incNumPost => some { u with numposts := u.numposts + 1 }
  | .decNumPost =>
      some { u with numposts := if 0 < u.numposts then u.numposts - 1 else u.numposts }
  | .violateLaw now =>
      some { u with
        userlevel := u.userlevel ||| permViolateLaw
        timeviolatelaw := now
        vlCount := u.vlCount + 1 }
  | .saveViolateLaw => some { u with userlevel := u.userlevel &&& ~~~permViolateLaw }
  | .cancelBadpost now =>
      if time4DaysElapsed now u.timeremovebadpost < badpostClearDuration then none
      else if u.badpost < 1 then none
      else some { u with badpost := u.badpost - 1, timeremovebadpost := now }
  | .addExMailBox m => some { u with exmailbox := u.exmailbox + m }
  | .setMyAngel angel now => some { u with myangel := strlcpy 13 angel, timesetangel := now }
  | .playAngel now => some { u with timeplayangel := now }
  | .setNickname nickname => some { u with nickname := strlcpy 24 nickname }
  | .toggleOutMail => some { u with uflag := u.uflag ^^^ ufRejOuttaMail }
  | .setLoginView bits => some { u with loginview := bits }
  | .setEmail email => some { u with email := strlcpy 50 email }
  | .regCompleteJustify justify =>
      some { u with
        justify := strlcpy 39 justify
        userlevel := u.userlevel ||| (permPost ||| permLoginOK) }
  | .regCompleteEmailJustify email justify =>
      some { u with
        email := strlcpy 50 email
        justify := strlcpy 39 justify
        userlevel := u.userlevel ||| (permPost ||| permLoginOK) }
  | .regSetTemporaryJustify justify email =>
      some { u with
        email := strlcpy 50 email
        justify := strlcpy 39 justify
        userlevel := u.userlevel &&& ~~~(permPost ||| permLoginOK) }
  | .registerSetInfo rname addr career email isForeign =>
      some { u with
        realname := strlcpy 20 rname
        address := strlcpy 50 addr
        career := strlcpy 40 career
        email := strlcpy 50 email
        uflag := setByBit u.uflag ufForeign isForeign }
  | .setUserAgreementVersion version => some { u with uaVersion := version }
  | .chessResult .chc result =>
      let (win, lose, tie) := scoreResult result u.chcWin u.chcLose u.chcTie
      some { u with chcWin := win, chcLose := lose, chcTie := tie }
  | .chessResult .gomo result =>
      let (win, lose, tie) := scoreResult result u.fiveWin u.fiveLose u.fiveTie
      some { u with fiveWin := win, fiveLose := lose, fiveTie := tie }
  | .setChessEloRating rating => some { u with chessEloRating := rating }
  | .toggleUserFlag mask => some { u with uflag := u.uflag ^^^ mask }
  | .set2FA value => some { u with u2fa := value }
  | .loginSave fromhost loginStartTime hidden =>
      some (loginSaved dayStart fromhost loginStartTime hidden u)
  | .exitSave pager invisible signature => some { u with pager, invisible, signature }

/-! ### The file -/

/-- How texts are kept in the file: `storage_to_mb` and `mb_to_storage` with the size
of the field, used where the encodings differ. -/
structure Encoding where
  needStorageConv : Bool := false
  storageToMb : Nat → List UInt8 → List UInt8 := fun _ text => text
  mbToStorage : Nat → List UInt8 → List UInt8 := fun _ text => text

structure PwcuConfig where
  encoding : Encoding := {}
  dayStart : UInt32 → UInt32 := id
  /-- The balance in shared memory. -/
  moneyof : Int := 0

def userecStorageToMem (encoding : Encoding) (u : Userec) : Userec :=
  if encoding.needStorageConv then
    { u with
      realname := encoding.storageToMb 20 u.realname
      nickname := encoding.storageToMb 24 u.nickname
      address := encoding.storageToMb 50 u.address
      career := encoding.storageToMb 40 u.career
      justify := encoding.storageToMb 39 u.justify }
  else u

def convToSDiff (encoding : Encoding) (size : Nat) (text disk origMem : List UInt8) : List UInt8 :=
  if origMem = text then disk else encoding.mbToStorage size text

def userecMemToStorageDiff (encoding : Encoding) (u origDisk origMem : Userec) : Userec :=
  if encoding.needStorageConv then
    { u with
      realname := convToSDiff encoding 20 u.realname origDisk.realname origMem.realname
      nickname := convToSDiff encoding 24 u.nickname origDisk.nickname origMem.nickname
      address := convToSDiff encoding 50 u.address origDisk.address origMem.address
      career := convToSDiff encoding 40 u.career origDisk.career origMem.career
      justify := convToSDiff encoding 39 u.justify origDisk.justify origMem.justify }
  else u

/-- `PWCU_START`: the record in memory, with the shared balance. -/
def pwcuStart (config : PwcuConfig) (disk : Userec) : Userec :=
  { userecStorageToMem config.encoding disk with money := config.moneyof }

def pwcuChanged (config : PwcuConfig) (op : PwcuOp) (read : Userec) : Option Userec :=
  let uOrig := pwcuStart config read
  (op.apply config.dayStart uOrig).filter fun u => uOrig ≠ u

/-- `PWCU_END`: what is in the file afterwards, given what is there and the record
that was read. -/
def pwcuEnd (config : PwcuConfig) (op : PwcuOp) (read disk : Userec) : Userec :=
  match pwcuChanged config op read with
  | none => disk
  | some u =>
      userecMemToStorageDiff config.encoding { u with money := config.moneyof } disk
        (pwcuStart config read)

def PwcuOp.alone (config : PwcuConfig) (op : PwcuOp) (disk : Userec) : Userec :=
  pwcuEnd config op disk disk

end Pttbbs.Mbbsd
