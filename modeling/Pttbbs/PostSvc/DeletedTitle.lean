/-
Titles of safe-deleted records.

When mbbsd deletes a post safely it leaves a record whose title tells who wrote the
post and who took it down.  The importer reads such a title back into a deletion,
and the writer of `.DIR` makes a title from a deletion again.
-/

import Pttbbs.PostSvc.Model

namespace Pttbbs.PostSvc

open Pttbbs.Lib

def safeDelTitle : Bytes := utf8 "(本文已被刪除)"

def safeDelOwner : Bytes := utf8 "-"

/-- Codes that stand for a reason, not titles. -/
def internalDeleteReasons : List Bytes :=
  [utf8 "expire", utf8 "tag_delete", utf8 "crosspost_del", utf8 "del_range"]

def fileAnonymous : Int64 := 0x80

def filePetition : Int64 := 0x40

/-- `(本文已被刪除) [author]`, for a post deleted by its author. -/
def selfTitle (author : Bytes) : Bytes := safeDelTitle ++ (32 :: 91 :: author ++ [93])

/-- `(本文已被刪除) <author>`, for a post removed by somebody else. -/
def removedTitle (author : Bytes) : Bytes := safeDelTitle ++ (32 :: 60 :: author ++ [62])

def deletedTitle (post : Post) : Bytes :=
  if post.deletion.removed && post.deletion.reason ≠ [] &&
      post.deletion.reason ∉ internalDeleteReasons then
    post.deletion.reason
  else if post.filemode &&& fileAnonymous ≠ 0 || post.creatorName = [] ||
      post.creatorName = safeDelOwner then
    safeDelTitle
  else if post.deletion.deleted then selfTitle post.creatorName
  else removedTitle post.creatorName

/-! ### Reading a title -/

def cutStem (stem text : Bytes) : Option Bytes :=
  if stem.isPrefixOf text then some (text.drop stem.length) else none

def bracketFree (name : Bytes) : Bool := name.all fun byte => byte ∉ utf8 " []<>"

def bracketed (opening closing : UInt8) (text : Bytes) : Option Bytes :=
  if text.head? = some opening && text.getLast? = some closing &&
      bracketFree text.tail.dropLast then
    some text.tail.dropLast
  else none

def standardForm (title : Bytes) : Option (Bytes × Bytes) :=
  (cutStem (safeDelTitle ++ [32]) title).bind fun rest =>
    if 2 < rest.length then
      match bracketed 91 93 rest with
      | some inner => some (inner, inner)
      | none => (bracketed 60 62 rest).map fun inner => (inner, safeDelOwner)
    else none

/-- The author in a moderator's title: what follows the last `<` up to the `>` that
ends the title. -/
def titleAuthor (title : Bytes) : Bytes :=
  if 60 ∈ title && title.getLast? = some 62 then
    ((splitOn 60 title).getLastD []).dropLast
  else []

/-- The deleter in a moderator's title `(已被…刪除)…`. -/
def titleDeleter (title : Bytes) : Bytes :=
  match (cutStem (utf8 "(已被") title).bind (cut (utf8 "刪除)")) with
  | some (name, _) => if name = [] then safeDelOwner else name
  | none => safeDelOwner

def parseDeletedTitle (title : Bytes) : Bytes × Bytes × Bytes :=
  if title = safeDelTitle then ([], [], [])
  else
    match standardForm title with
    | some (author, deletedBy) => (author, deletedBy, [])
    | none => (titleAuthor title, titleDeleter title, title)

/-! ### Accounts -/

structure UserResolver where
  lookupUserid : Bytes → Option (Int × UInt32)
  lookupUsernum : Int → Option (Bytes × UInt32)

def makePersonID (usernum : Int) (firstlogin : UInt32) : PersonID :=
  if usernum ≤ 0 then 0
  else firstlogin.toUInt64 <<< 32 ||| (UInt32.ofInt usernum).toUInt64

/-- The account that has the name (or the slot) now, if it existed at the time. -/
def resolvePersonID (users : Option UserResolver) (userid : Bytes) (usernum : Int)
    (time : Int64) : PersonID :=
  match users with
  | none => 0
  | some users =>
      let found :=
        if 0 < usernum then (users.lookupUsernum usernum).map fun entry => (usernum, entry.2)
        else if userid = [] || userid.any (· ∈ utf8 ".@ ") then none
        else users.lookupUserid userid
      match found with
      | none => 0
      | some (usernum, firstlogin) =>
          if 0 < time && time < firstlogin.toUInt64.toInt64 then 0
          else makePersonID usernum firstlogin

/-! ### Importing a safe-deleted record -/

structure FileHeader where
  filename : Bytes
  modified : UInt32
  score : Int16
  owner : Bytes
  title : Bytes
  filemode : UInt16
  multi : UInt32
  comments : UInt16

/-- `^[MG]\.(\d+)\.`: the time in the name of an article file, or zero. -/
def stampTime (filename : Bytes) : Int64 :=
  match filename with
  | kind :: 46 :: rest =>
      let digits := rest.takeWhile isDigitByte
      if (kind = 77 || kind = 71) && digits ≠ [] &&
          (rest.drop digits.length).head? = some 46 then
        parseInt64 digits
      else 0
  | _ => 0

def FileHeader.deletedAt (header : FileHeader) : Int64 := header.modified.toUInt64.toInt64

def FileHeader.mode (header : FileHeader) : Int64 := header.filemode.toUInt64.toInt64

def FileHeader.anonymous (header : FileHeader) : Bool := header.mode &&& fileAnonymous ≠ 0

def FileHeader.createdAt (header : FileHeader) : Int64 :=
  if stampTime header.filename = 0 then header.deletedAt else stampTime header.filename

def moneyOf (header : FileHeader) : Int64 :=
  if header.mode &&& (fileAnonymous ||| filePetition) ≠ 0 then 0
  else header.multi.toInt32.toInt64

def FileHeader.creatorID (users : Option UserResolver) (header : FileHeader) (author : Bytes) :
    PersonID :=
  if header.anonymous then
    resolvePersonID users [] header.multi.toInt32.toInt header.createdAt
  else resolvePersonID users author 0 header.createdAt

def FileHeader.deletedByID (users : Option UserResolver) (header : FileHeader)
    (author deletedBy : Bytes) : PersonID :=
  if deletedBy = author then header.creatorID users author
  else resolvePersonID users deletedBy 0 header.deletedAt

/-- `importSafeDeleted` for a post the service does not have. -/
def importSafeDeleted (users : Option UserResolver) (board : Bytes) (header : FileHeader) :
    Post :=
  let (author, deletedBy, reason) := parseDeletedTitle header.title
  let creatorID := header.creatorID users author
  { community := board
    postFile := header.filename
    creatorName := author
    creatorID := creatorID
    createdAt := header.createdAt
    modified := header.deletedAt
    filemode := header.mode
    money := moneyOf header
    upvotes := max header.score.toInt 0
    downvotes := max (-header.score.toInt) 0
    numComments := header.comments.toNat
    encoding := utf8 "utf-8"
    deletion := Deletion.delete author creatorID deletedBy
      (header.deletedByID users author deletedBy) reason header.deletedAt }

/-! ### The forms of a title -/

theorem cutStem_append (stem rest : Bytes) : cutStem stem (stem ++ rest) = some rest := by
  unfold cutStem
  rw [if_pos (by rw [List.isPrefixOf_iff_prefix]; exact List.prefix_append stem rest),
    List.drop_left]

theorem cutStem_eq_some {stem text rest : Bytes} (found : cutStem stem text = some rest) :
    text = stem ++ rest := by
  unfold cutStem at found
  split at found
  · next starts =>
      obtain ⟨tail, whole⟩ := List.isPrefixOf_iff_prefix.mp starts
      rw [← whole, List.drop_left] at found
      rw [← whole, Option.some.inj found]
  · cases found

theorem bracketed_append (opening closing : UInt8) {inner : Bytes} (free : bracketFree inner) :
    bracketed opening closing (opening :: inner ++ [closing]) = some inner := by
  unfold bracketed
  have tail : (opening :: inner ++ [closing]).tail.dropLast = inner := by simp
  have last : (opening :: inner ++ [closing]).getLast? = some closing := List.getLast?_concat
  rw [tail, last]
  simp [free]

theorem bracketed_eq_some {opening closing : UInt8} {text inner : Bytes}
    (long : 2 < text.length) (found : bracketed opening closing text = some inner) :
    text = opening :: inner ++ [closing] ∧ inner ≠ [] ∧ bracketFree inner = true := by
  unfold bracketed at found
  split at found
  · next both =>
      simp only [Bool.and_eq_true, decide_eq_true_eq] at both
      obtain ⟨⟨head, last⟩, free⟩ := both
      cases text with
      | nil => simp at long
      | cons first rest =>
          have nonempty : rest ≠ [] := by
            intro none
            simp [none] at long
          have ending : rest.getLast nonempty = closing := by
            rw [List.getLast?_cons_of_ne_nil nonempty, List.getLast?_eq_some_getLast nonempty] at last
            exact Option.some.inj last
          cases head
          have same : rest.dropLast = inner := Option.some.inj found
          have whole := List.dropLast_append_getLast nonempty
          rw [same, ending] at whole
          refine ⟨by rw [← whole]; rfl, ?_, by rw [← same]; exact free⟩
          intro none
          rw [← whole, none] at long
          simp at long
  · cases found

/-- A title of a standard form names its author; the other titles were typed. -/
inductive TitleForm (title : Bytes) : Prop where
  | bare (here : title = safeDelTitle)
  | self (author : Bytes) (here : title = selfTitle author) (nonempty : author ≠ [])
      (free : bracketFree author = true)
  | removed (author : Bytes) (here : title = removedTitle author) (nonempty : author ≠ [])
      (free : bracketFree author = true)
  | typed (bare : title ≠ safeDelTitle) (typed : standardForm title = none)

theorem standardForm_self {author : Bytes} (nonempty : author ≠ []) (free : bracketFree author) :
    standardForm (selfTitle author) = some (author, author) := by
  have split : selfTitle author = (safeDelTitle ++ [32]) ++ (91 :: author ++ [93]) := by
    simp [selfTitle]
  have long : 2 < (91 :: author ++ [93]).length := by
    have positive := List.length_pos_iff.mpr nonempty
    simp
    omega
  unfold standardForm
  rw [split, cutStem_append, Option.bind_some, if_pos long, bracketed_append 91 93 free]

theorem standardForm_removed {author : Bytes} (nonempty : author ≠ [])
    (free : bracketFree author) :
    standardForm (removedTitle author) = some (author, safeDelOwner) := by
  have split : removedTitle author = (safeDelTitle ++ [32]) ++ (60 :: author ++ [62]) := by
    simp [removedTitle]
  have long : 2 < (60 :: author ++ [62]).length := by
    have positive := List.length_pos_iff.mpr nonempty
    simp
    omega
  have other : bracketed 91 93 (60 :: author ++ [62]) = none := by
    unfold bracketed
    rw [if_neg]
    simp
  unfold standardForm
  rw [split, cutStem_append, Option.bind_some, if_pos long, other,
    bracketed_append 60 62 free]
  rfl

theorem titleForm (title : Bytes) : TitleForm title := by
  by_cases bare : title = safeDelTitle
  · exact .bare bare
  · cases form : standardForm title with
    | none => exact .typed bare form
    | some names =>
        unfold standardForm at form
        obtain ⟨rest, cut, form⟩ := Option.bind_eq_some_iff.mp form
        have whole := cutStem_eq_some cut
        split at form
        · next long =>
            cases square : bracketed 91 93 rest with
            | some inner =>
                obtain ⟨shape, nonempty, free⟩ := bracketed_eq_some long square
                refine .self inner ?_ nonempty free
                rw [whole, shape]
                simp [selfTitle]
            | none =>
                rw [square] at form
                obtain ⟨inner, angle, _names⟩ := Option.map_eq_some_iff.mp form
                obtain ⟨shape, nonempty, free⟩ := bracketed_eq_some long angle
                refine .removed inner ?_ nonempty free
                rw [whole, shape]
                simp [removedTitle]
        · cases form

theorem selfTitle_ne_bare (author : Bytes) : selfTitle author ≠ safeDelTitle := by
  intro same
  have lengths := congrArg List.length same
  simp [selfTitle] at lengths

theorem removedTitle_ne_bare (author : Bytes) : removedTitle author ≠ safeDelTitle := by
  intro same
  have lengths := congrArg List.length same
  simp [removedTitle] at lengths

theorem selfTitle_ne_removedTitle (left right : Bytes) : selfTitle left ≠ removedTitle right := by
  intro same
  have rest := List.append_cancel_left same
  simp at rest

/-! ### Writing back what was read -/

def SameAccount (users : Option UserResolver) (header : FileHeader)
    (author deletedBy : Bytes) : Prop :=
  header.deletedByID users author deletedBy ≠ 0 ∧ header.creatorID users author ≠ 0 ∧
    header.deletedByID users author deletedBy = header.creatorID users author

instance (users : Option UserResolver) (header : FileHeader) (author deletedBy : Bytes) :
    Decidable (SameAccount users header author deletedBy) :=
  inferInstanceAs (Decidable (_ ∧ _ ∧ _))

/-- The title is one of the bare and standard forms with a name to show, or a typed one
that is no code and does not name the same person twice. -/
def Recoverable (users : Option UserResolver) (header : FileHeader) : Prop :=
  header.title = safeDelTitle ∨
  (∃ author, header.title = selfTitle author ∧ author ≠ [] ∧ bracketFree author = true ∧
    author ≠ safeDelOwner ∧ header.anonymous = false) ∨
  (∃ author, header.title = removedTitle author ∧ author ≠ [] ∧ bracketFree author = true ∧
    author ≠ safeDelOwner ∧ header.anonymous = false ∧
    ¬ SameAccount users header author safeDelOwner) ∨
  ((header.title ≠ safeDelTitle ∧ standardForm header.title = none) ∧
    header.title ∉ internalDeleteReasons ∧
    titleAuthor header.title ≠ titleDeleter header.title ∧
    ¬ SameAccount users header (titleAuthor header.title) (titleDeleter header.title))

theorem delete_self {users : Option UserResolver} {header : FileHeader}
    {author deletedBy reason : Bytes}
    (own : deletedBy = author ∨ SameAccount users header author deletedBy) :
    Deletion.delete author (header.creatorID users author) deletedBy
        (header.deletedByID users author deletedBy) reason header.deletedAt =
      { deleted := true, deletedAt := header.deletedAt } := by
  unfold Deletion.delete
  dsimp only
  rw [if_pos]
  rcases own with same | ⟨byID, creatorID, same⟩
  · subst same
    have ids : header.deletedByID users deletedBy deletedBy = header.creatorID users deletedBy :=
      if_pos rfl
    split
    · exact ids
    · rfl
  · rw [if_pos ⟨byID, creatorID⟩]
    exact same

theorem delete_other {users : Option UserResolver} {header : FileHeader}
    {author deletedBy reason : Bytes} (apart : deletedBy ≠ author)
    (accounts : ¬ SameAccount users header author deletedBy) :
    Deletion.delete author (header.creatorID users author) deletedBy
        (header.deletedByID users author deletedBy) reason header.deletedAt =
      { removed := true
        deletedAt := header.deletedAt
        modPersonName := headerValue deletedBy
        modPersonID := header.deletedByID users author deletedBy
        reason := headerValue reason } := by
  unfold Deletion.delete
  dsimp only
  rw [if_neg]
  split
  · next ids => exact fun same => accounts ⟨ids.1, ids.2, same⟩
  · exact apart

theorem deletedTitle_import (users : Option UserResolver) (board : Bytes) (header : FileHeader)
    {author deletedBy reason : Bytes}
    (read : parseDeletedTitle header.title = (author, deletedBy, reason))
    (single : LineFree reason) :
    deletedTitle (importSafeDeleted users board header) =
      if deletedBy ≠ author ∧ ¬ SameAccount users header author deletedBy ∧ reason ≠ [] ∧
          reason ∉ internalDeleteReasons then reason
      else if header.anonymous = true ∨ author = [] ∨ author = safeDelOwner then safeDelTitle
      else if deletedBy = author ∨ SameAccount users header author deletedBy then
        selfTitle author
      else removedTitle author := by
  unfold importSafeDeleted
  rw [read]
  simp only [deletedTitle]
  have mode : (header.mode &&& fileAnonymous ≠ 0) ↔ header.anonymous = true := by
    simp [FileHeader.anonymous]
  by_cases own : deletedBy = author ∨ SameAccount users header author deletedBy
  · simp only [delete_self own]
    have notOther : ¬ (deletedBy ≠ author ∧ ¬ SameAccount users header author deletedBy ∧
        reason ≠ [] ∧ reason ∉ internalDeleteReasons) := by
      rintro ⟨apart, accounts, _⟩
      exact own.elim apart accounts
    rw [if_neg notOther, if_neg (by simp)]
    simp only [Bool.or_eq_true, decide_eq_true_eq, mode, or_assoc, if_true, if_pos own]
  · rw [not_or] at own
    simp only [delete_other own.1 own.2, headerValue_of_lineFree single]
    by_cases kept : reason ≠ [] ∧ reason ∉ internalDeleteReasons
    · rw [if_pos (by simp [kept]), if_pos ⟨own.1, own.2, kept⟩]
    · have coded : ¬ (deletedBy ≠ author ∧ ¬ SameAccount users header author deletedBy ∧
          reason ≠ [] ∧ reason ∉ internalDeleteReasons) := fun all => kept all.2.2
      rw [if_neg coded, if_neg (by simpa [not_and_or] using kept)]
      simp only [Bool.or_eq_true, decide_eq_true_eq, mode, or_assoc, Bool.false_eq_true,
        if_false, own.1, own.2, or_self]

theorem titleAuthor_last {title : Bytes} (named : titleAuthor title ≠ []) :
    title.getLast? = some 62 := by
  unfold titleAuthor at named
  split at named
  · next both =>
      simp only [Bool.and_eq_true, decide_eq_true_eq] at both
      exact both.2
  · exact absurd rfl named

/-- The title is written back as it was read exactly when it is recoverable. -/
theorem deletedTitle_importSafeDeleted_iff (users : Option UserResolver) (board : Bytes)
    (header : FileHeader) (nonempty : header.title ≠ []) (single : LineFree header.title) :
    deletedTitle (importSafeDeleted users board header) = header.title ↔
      Recoverable users header := by
  have none : LineFree [] := rfl
  cases titleForm header.title with
  | bare here =>
      have read : parseDeletedTitle header.title = ([], [], []) := if_pos here
      rw [deletedTitle_import users board header read none]
      refine iff_of_true ?_ (.inl here)
      rw [if_neg (by simp), if_pos (.inr (.inl rfl)), here]
  | self author here named free =>
      have bare : header.title ≠ safeDelTitle := by rw [here]; exact selfTitle_ne_bare author
      have form : standardForm header.title = some (author, author) := by
        rw [here]
        exact standardForm_self named free
      have read : parseDeletedTitle header.title = (author, author, []) := by
        unfold parseDeletedTitle
        rw [if_neg bare, form]
      have unique : ∀ other, header.title = selfTitle other → other = author := by
        intro other same
        rw [here] at same
        have rest := List.append_cancel_left same
        simpa using rest.symm
      rw [deletedTitle_import users board header read none, if_neg (by simp)]
      by_cases hidden : header.anonymous = true ∨ author = [] ∨ author = safeDelOwner
      · rw [if_pos hidden]
        refine iff_of_false (Ne.symm bare) ?_
        rintro (same | ⟨other, same, _, _, shown, open'⟩ | ⟨other, same, _⟩ | ⟨⟨_, typed⟩, _⟩)
        · exact bare same
        · cases unique other same
          rcases hidden with hidden | hidden | hidden
          · rw [open'] at hidden
            cases hidden
          · exact named hidden
          · exact shown hidden
        · rw [here] at same
          exact selfTitle_ne_removedTitle author other same
        · rw [form] at typed
          cases typed
      · rw [if_neg hidden, if_pos (.inl rfl)]
        simp only [not_or, Bool.not_eq_true] at hidden
        exact iff_of_true here.symm (.inr (.inl ⟨author, here, named, free, hidden.2.2, hidden.1⟩))
  | removed author here named free =>
      have bare : header.title ≠ safeDelTitle := by rw [here]; exact removedTitle_ne_bare author
      have form : standardForm header.title = some (author, safeDelOwner) := by
        rw [here]
        exact standardForm_removed named free
      have read : parseDeletedTitle header.title = (author, safeDelOwner, []) := by
        unfold parseDeletedTitle
        rw [if_neg bare, form]
      have unique : ∀ other, header.title = removedTitle other → other = author := by
        intro other same
        rw [here] at same
        have rest := List.append_cancel_left same
        simpa using rest.symm
      rw [deletedTitle_import users board header read none, if_neg (by simp)]
      have lost : ∀ {title}, title ≠ header.title →
          ¬ (author ≠ safeDelOwner ∧ header.anonymous = false ∧
            ¬ SameAccount users header author safeDelOwner) →
          (title = header.title ↔ Recoverable users header) := by
        intro title differs spoiled
        refine iff_of_false differs ?_
        rintro (same | ⟨other, same, _⟩ | ⟨other, same, _, _, rest⟩ | ⟨⟨_, typed⟩, _⟩)
        · exact bare same
        · rw [here] at same
          exact selfTitle_ne_removedTitle other author same.symm
        · cases unique other same
          exact spoiled rest
        · rw [form] at typed
          cases typed
      by_cases hidden : header.anonymous = true ∨ author = [] ∨ author = safeDelOwner
      · rw [if_pos hidden]
        refine lost (Ne.symm bare) ?_
        rintro ⟨shown, open', _⟩
        rcases hidden with hidden | hidden | hidden
        · rw [open'] at hidden
          cases hidden
        · exact named hidden
        · exact shown hidden
      · rw [if_neg hidden]
        simp only [not_or, Bool.not_eq_true] at hidden
        by_cases own : safeDelOwner = author ∨ SameAccount users header author safeDelOwner
        · rw [if_pos own]
          refine lost ?_ ?_
          · rw [here]
            exact selfTitle_ne_removedTitle author author
          · rintro ⟨shown, _, accounts⟩
            exact own.elim (fun same => shown same.symm) accounts
        · rw [if_neg own]
          rw [not_or] at own
          exact iff_of_true here.symm
            (.inr (.inr (.inl ⟨author, here, named, free, hidden.2.2, hidden.1, own.2⟩)))
  | typed bare typed =>
      have read : parseDeletedTitle header.title =
          (titleAuthor header.title, titleDeleter header.title, header.title) := by
        unfold parseDeletedTitle
        rw [if_neg bare, typed]
      rw [deletedTitle_import users board header read single]
      have onlyTyped : Recoverable users header ↔ header.title ∉ internalDeleteReasons ∧
          titleAuthor header.title ≠ titleDeleter header.title ∧
          ¬ SameAccount users header (titleAuthor header.title) (titleDeleter header.title) := by
        constructor
        · rintro (same | ⟨author, same, named, free, _⟩ | ⟨author, same, named, free, _⟩ |
            ⟨_, rest⟩)
          · exact absurd same bare
          · rw [same, standardForm_self named free] at typed
            cases typed
          · rw [same, standardForm_removed named free] at typed
            cases typed
          · exact rest
        · exact fun rest => .inr (.inr (.inr ⟨⟨bare, typed⟩, rest⟩))
      rw [onlyTyped]
      by_cases kept : titleDeleter header.title ≠ titleAuthor header.title ∧
          ¬ SameAccount users header (titleAuthor header.title) (titleDeleter header.title) ∧
          header.title ≠ [] ∧ header.title ∉ internalDeleteReasons
      · rw [if_pos kept]
        exact iff_of_true rfl ⟨kept.2.2.2, kept.1.symm, kept.2.1⟩
      · rw [if_neg kept]
        refine iff_of_false ?_ fun rest => kept ⟨rest.2.1.symm, rest.2.2, nonempty, rest.1⟩
        split
        · exact Ne.symm bare
        · next shown =>
            simp only [not_or] at shown
            have last := titleAuthor_last shown.2.1
            split
            · intro same
              have ending : (selfTitle (titleAuthor header.title)).getLast? = some 93 := by
                rw [selfTitle, ← List.append_assoc]
                exact List.getLast?_concat
              rw [same, last] at ending
              cases ending
            · next other =>
                intro same
                -- A code has no author, so the title would have been the bare one.
                rw [not_or] at other
                have code : header.title ∈ internalDeleteReasons := by
                  by_contra no
                  exact kept ⟨other.1, other.2, nonempty, no⟩
                have ends : ∀ reason ∈ internalDeleteReasons, reason.getLast? ≠ some 62 := by
                  decide
                exact ends _ code last

def ownDeletion : FileHeader :=
  { filename := utf8 "M.1.A", modified := 2, score := 0, owner := utf8 "-",
    title := utf8 "(已被bm刪除) <bm>", filemode := 0, multi := 0, comments := 0 }

theorem moderator_title_lost : ownDeletion.title ≠ [] ∧ LineFree ownDeletion.title ∧
    deletedTitle (importSafeDeleted none [] ownDeletion) ≠ ownDeletion.title := by
  decide

theorem moderator_title_kept :
    deletedTitle (importSafeDeleted none []
        { ownDeletion with title := utf8 "(已被bm刪除) <user>" }) =
      utf8 "(已被bm刪除) <user>" ↔
    Recoverable none { ownDeletion with title := utf8 "(已被bm刪除) <user>" } :=
  deletedTitle_importSafeDeleted_iff none [] _ (by decide) (by decide)

end Pttbbs.PostSvc
