/-
The predicates of a search, and their canonical form.

A predicate is a fixed structure of 84 bytes whose mode bits say which of its fields
count.  The service brings the predicates of a query into a canonical form before it uses
their bytes as a cache key: the mode becomes the one bit that counts, the fields that do
not count are cleared, and repeated predicates are left out.
-/

import Mathlib.Data.List.Nodup
import Pttbbs.Lib.Bytes

namespace Pttbbs.SearchSvc

open Pttbbs.Lib

/-! ### C strings -/

def tolower (byte : UInt8) : UInt8 := if 65 ≤ byte ∧ byte ≤ 90 then byte + 32 else byte

def isDbcsLead (byte : UInt8) : Bool := 0x80 ≤ byte

/-- The inner loop of `mbs_strcasestr`: a text begins with the key, whole characters of two
bytes exactly and the others without regard to case. -/
def beginsWith : Bytes → Bytes → Bool
  | _, [] => true
  | [], _ :: _ => false
  | first :: pool, byte :: key =>
      if isDbcsLead first then
        match pool, key with
        | [], [] => byte = first
        | second :: pool, next :: key => byte = first && next = second && beginsWith pool key
        | _, _ => false
      else !isDbcsLead byte && tolower byte = tolower first && beginsWith pool key

/-- `mbs_strcasestr` on texts in Big5: no match begins inside of a character. -/
def dbcsStrcasestr (key : Bytes) : Bytes → Bool
  | [] => key = []
  | [only] => beginsWith [only] key
  | first :: second :: rest =>
      beginsWith (first :: second :: rest) key ||
        if isDbcsLead first then dbcsStrcasestr key rest else dbcsStrcasestr key (second :: rest)

def strcasestr (key : Bytes) (pool : Bytes) : Bool :=
  pool.tails.any fun tail => (key.map tolower).isPrefixOf (tail.map tolower)

structure Config where
  mbIsUtf8 : Bool
  /-- `str_legacy_forward`, where `USE_LEGACY_FORWARD` is defined. -/
  strLegacyForward : Option Bytes := none
  validPostMoney : Int := 100

def mbsStrcasestr (config : Config) (pool key : Bytes) : Bool :=
  if config.mbIsUtf8 then strcasestr key pool else dbcsStrcasestr key pool

def strReply : Bytes := utf8 "Re:"
def strForward : Bytes := utf8 "Fw:"

/-- What follows a reply or forward mark at the beginning of a title. -/
def afterMark? (config : Config) (title : Bytes) : Option Bytes :=
  if strReply.map tolower <+: title.map tolower then some (title.drop strReply.length)
  else if strForward.map tolower <+: title.map tolower then some (title.drop strForward.length)
  else
    config.strLegacyForward.bind fun mark =>
      if mark <+: title then some (title.drop mark.length) else none

/-- The loop of `subject`; every turn takes a mark off, so the length of the title is
enough fuel. -/
def subjectFrom (config : Config) : Nat → Bytes → Bytes
  | 0, title => title
  | fuel + 1, title =>
      match afterMark? config title with
      | none => title
      | some (32 :: rest) => subjectFrom config fuel rest
      | some rest => subjectFrom config fuel rest

def subject (config : Config) (title : Bytes) : Bytes := subjectFrom config title.length title

/-! ### Headers and predicates -/

structure Fileheader where
  filename : Bytes
  score : Int16
  owner : Bytes
  title : Bytes
  money : Int32
  filemode : UInt16
  comments : UInt16

def fileMarked : UInt16 := 0x0002
def fileSolved : UInt16 := 0x0010

/-- `FILE_ANONYMOUS | FILE_DIGEST | FILE_PETITION | FILE_BID` -/
def invalidMoneyModes : UInt16 := 0x0080 ||| 0x0004 ||| 0x0040 ||| 0x0020

def rsTitle : UInt32 := 0x02
def rsKeyword : UInt32 := 0x04
def rsMark : UInt32 := 0x20
def rsAuthor : UInt32 := 0x40
def rsNewpost : UInt32 := 0x80
def rsKeywordExclude : UInt32 := 0x100
def rsScore : UInt32 := 0x200
def rsMoney : UInt32 := 0x400
def rsSolved : UInt32 := 0x800
def rsComments : UInt32 := 0x1000

def ttLen : Nat := 64

/-- A terminated string in its field, and what the field holds behind it. -/
structure Keyword where
  text : Bytes
  behind : Bytes
  noNul : ∀ byte ∈ text, byte ≠ 0
  size : text.length + 1 + behind.length = ttLen + 1
deriving DecidableEq

def Keyword.bytes (keyword : Keyword) : Bytes := keyword.text ++ 0 :: keyword.behind

/-- `strlcpy` into a field of zeros. -/
def Keyword.clear (keyword : Keyword) : Keyword where
  text := keyword.text
  behind := List.replicate keyword.behind.length 0
  noNul := keyword.noNul
  size := by rw [List.length_replicate, keyword.size]

def Keyword.zero : Keyword where
  text := []
  behind := List.replicate ttLen 0
  noNul := nofun
  size := by
    rw [List.length_replicate, List.length_nil]
    omega

structure FileheaderPredicate where
  mode : UInt32
  keyword : Keyword
  /-- The three bytes that align the numbers. -/
  padding : UInt8 × UInt8 × UInt8
  score : Int32
  money : Int32
  comments : Int32
deriving DecidableEq

namespace FileheaderPredicate

def zero : FileheaderPredicate :=
  { mode := 0, keyword := .zero, padding := (0, 0, 0), score := 0, money := 0, comments := 0 }

def wordBytes (value : UInt32) : Bytes := (putUint32 value).reverse

def bytes (pred : FileheaderPredicate) : Bytes :=
  wordBytes pred.mode ++ (pred.keyword.bytes ++ ([pred.padding.1, pred.padding.2.1,
    pred.padding.2.2] ++ (wordBytes pred.score.toUInt32 ++ (wordBytes pred.money.toUInt32 ++
      wordBytes pred.comments.toUInt32))))

end FileheaderPredicate

/-! ### Matching -/

def hasMode (mode bit : UInt32) : Bool := mode &&& bit ≠ 0

/-- The first mode bit in this order that is set decides. -/
def matchFileheaderPredicate (config : Config) (fh : Fileheader) (pred : FileheaderPredicate) :
    Bool :=
  if hasMode pred.mode rsMark then fh.filemode &&& fileMarked ≠ 0
  else if hasMode pred.mode rsSolved then fh.filemode &&& fileSolved ≠ 0
  else if hasMode pred.mode rsNewpost then !strReply.isPrefixOf fh.title
  else if hasMode pred.mode rsAuthor then mbsStrcasestr config fh.owner pred.keyword.text
  else if hasMode pred.mode rsKeyword then mbsStrcasestr config fh.title pred.keyword.text
  else if hasMode pred.mode rsKeywordExclude then
    !mbsStrcasestr config fh.title pred.keyword.text
  else if hasMode pred.mode rsTitle then
    (subject config fh.title).map tolower = pred.keyword.text.map tolower
  else if hasMode pred.mode rsScore then
    if 0 < pred.score.toInt then pred.score.toInt ≤ fh.score.toInt
    else fh.score.toInt ≤ pred.score.toInt
  else if hasMode pred.mode rsComments then
    (if 0 < pred.comments.toInt then pred.comments.toInt else pred.score.toInt) ≤
      (fh.comments.toNat : Int)
  else if hasMode pred.mode rsMoney then
    if fh.filemode &&& invalidMoneyModes ≠ 0 ∨ config.validPostMoney < fh.money.toInt then false
    else pred.money.toInt ≤ fh.money.toInt
  else false

def matchesAll (config : Config) (preds : List FileheaderPredicate) (fh : Fileheader) : Bool :=
  preds.all (matchFileheaderPredicate config fh)

/-- The numbers of the records of a directory that a search finds: those with a name that
match every predicate. -/
def matchingRecords (config : Config) (preds : List FileheaderPredicate)
    (dir : List Fileheader) : List Nat :=
  (dir.zipIdx 1).filterMap fun entry =>
    if entry.1.filename ≠ [] ∧ matchesAll config preds entry.1 then some entry.2 else none

/-! ### The canonical form -/

open FileheaderPredicate in
def cleanPred (pred : FileheaderPredicate) : FileheaderPredicate :=
  if hasMode pred.mode rsMark then { zero with mode := rsMark }
  else if hasMode pred.mode rsSolved then { zero with mode := rsSolved }
  else if hasMode pred.mode rsNewpost then { zero with mode := rsNewpost }
  else if hasMode pred.mode rsAuthor then
    { zero with mode := rsAuthor, keyword := pred.keyword.clear }
  else if hasMode pred.mode rsKeyword then
    { zero with mode := rsKeyword, keyword := pred.keyword.clear }
  else if hasMode pred.mode rsKeywordExclude then
    { zero with mode := rsKeywordExclude, keyword := pred.keyword.clear }
  else if hasMode pred.mode rsTitle then
    { zero with mode := rsTitle, keyword := pred.keyword.clear }
  else if hasMode pred.mode rsScore then { zero with mode := rsScore, score := pred.score }
  else if hasMode pred.mode rsComments then
    { zero with
      mode := rsComments
      comments := if 0 < pred.comments.toInt then pred.comments else pred.score }
  else if hasMode pred.mode rsMoney then { zero with mode := rsMoney, money := pred.money }
  else zero

/-- One turn of the loop: a predicate whose bytes are there already is left out. -/
def keepNew (out : List FileheaderPredicate) (pred : FileheaderPredicate) :
    List FileheaderPredicate :=
  if cleanPred pred ∈ out then out else out ++ [cleanPred pred]

def cSanitizePreds (preds : List FileheaderPredicate) : List FileheaderPredicate :=
  preds.foldl keepNew []

/-! ### Kinds -/

inductive Kind where
  | mark
  | solved
  | newpost
  | author
  | keyword
  | keywordExclude
  | title
  | score
  | comments
  | money
  | none
deriving DecidableEq

def kindOf (mode : UInt32) : Kind :=
  if hasMode mode rsMark then .mark
  else if hasMode mode rsSolved then .solved
  else if hasMode mode rsNewpost then .newpost
  else if hasMode mode rsAuthor then .author
  else if hasMode mode rsKeyword then .keyword
  else if hasMode mode rsKeywordExclude then .keywordExclude
  else if hasMode mode rsTitle then .title
  else if hasMode mode rsScore then .score
  else if hasMode mode rsComments then .comments
  else if hasMode mode rsMoney then .money
  else .none

def matchKind (config : Config) (fh : Fileheader) (pred : FileheaderPredicate) : Kind → Bool
  | .mark => fh.filemode &&& fileMarked ≠ 0
  | .solved => fh.filemode &&& fileSolved ≠ 0
  | .newpost => !strReply.isPrefixOf fh.title
  | .author => mbsStrcasestr config fh.owner pred.keyword.text
  | .keyword => mbsStrcasestr config fh.title pred.keyword.text
  | .keywordExclude => !mbsStrcasestr config fh.title pred.keyword.text
  | .title => (subject config fh.title).map tolower = pred.keyword.text.map tolower
  | .score =>
      if 0 < pred.score.toInt then pred.score.toInt ≤ fh.score.toInt
      else fh.score.toInt ≤ pred.score.toInt
  | .comments =>
      (if 0 < pred.comments.toInt then pred.comments.toInt else pred.score.toInt) ≤
        (fh.comments.toNat : Int)
  | .money =>
      if fh.filemode &&& invalidMoneyModes ≠ 0 ∨ config.validPostMoney < fh.money.toInt then false
      else pred.money.toInt ≤ fh.money.toInt
  | .none => false

def cleanKind (pred : FileheaderPredicate) : Kind → FileheaderPredicate
  | .mark => { FileheaderPredicate.zero with mode := rsMark }
  | .solved => { FileheaderPredicate.zero with mode := rsSolved }
  | .newpost => { FileheaderPredicate.zero with mode := rsNewpost }
  | .author =>
      { FileheaderPredicate.zero with mode := rsAuthor, keyword := pred.keyword.clear }
  | .keyword =>
      { FileheaderPredicate.zero with mode := rsKeyword, keyword := pred.keyword.clear }
  | .keywordExclude =>
      { FileheaderPredicate.zero with mode := rsKeywordExclude, keyword := pred.keyword.clear }
  | .title => { FileheaderPredicate.zero with mode := rsTitle, keyword := pred.keyword.clear }
  | .score => { FileheaderPredicate.zero with mode := rsScore, score := pred.score }
  | .comments =>
      { FileheaderPredicate.zero with
        mode := rsComments
        comments := if 0 < pred.comments.toInt then pred.comments else pred.score }
  | .money => { FileheaderPredicate.zero with mode := rsMoney, money := pred.money }
  | .none => FileheaderPredicate.zero

theorem matchFileheaderPredicate_eq (config : Config) (fh : Fileheader)
    (pred : FileheaderPredicate) :
    matchFileheaderPredicate config fh pred = matchKind config fh pred (kindOf pred.mode) := by
  unfold kindOf
  simp only [apply_ite (matchKind config fh pred)]
  rfl

theorem cleanPred_eq (pred : FileheaderPredicate) :
    cleanPred pred = cleanKind pred (kindOf pred.mode) := by
  unfold kindOf
  simp only [apply_ite (cleanKind pred)]
  rfl

def Kind.bit : Kind → UInt32
  | .mark => rsMark
  | .solved => rsSolved
  | .newpost => rsNewpost
  | .author => rsAuthor
  | .keyword => rsKeyword
  | .keywordExclude => rsKeywordExclude
  | .title => rsTitle
  | .score => rsScore
  | .comments => rsComments
  | .money => rsMoney
  | .none => 0

theorem kindOf_bit (kind : Kind) : kindOf kind.bit = kind := by
  cases kind <;> decide

theorem kindOf_cleanKind (pred : FileheaderPredicate) (kind : Kind) :
    kindOf (cleanKind pred kind).mode = kind := by
  have only : (cleanKind pred kind).mode = kind.bit := by
    cases kind <;> rfl
  rw [only, kindOf_bit]

theorem matchKind_cleanKind (config : Config) (fh : Fileheader) (pred : FileheaderPredicate)
    (kind : Kind) :
    matchKind config fh (cleanKind pred kind) kind = matchKind config fh pred kind := by
  cases kind with
  | comments =>
      have unsigned : (0 : Int) ≤ fh.comments.toNat := Int.natCast_nonneg _
      change decide ((if 0 < (if 0 < pred.comments.toInt then pred.comments else pred.score).toInt
          then (if 0 < pred.comments.toInt then pred.comments else pred.score).toInt else 0) ≤
          (fh.comments.toNat : Int)) =
        decide ((if 0 < pred.comments.toInt then pred.comments.toInt else pred.score.toInt) ≤
          (fh.comments.toNat : Int))
      rw [decide_eq_decide]
      by_cases asked : 0 < pred.comments.toInt
      · rw [if_pos asked, if_pos asked, if_pos asked]
      · -- below zero every number of comments is enough
        rw [if_neg asked, if_neg asked]
        split <;> omega
  | mark | solved | newpost | author | keyword | keywordExclude | title | score | money | none =>
      rfl

theorem matchFileheaderPredicate_cleanPred (config : Config) (fh : Fileheader)
    (pred : FileheaderPredicate) :
    matchFileheaderPredicate config fh (cleanPred pred) =
      matchFileheaderPredicate config fh pred := by
  rw [matchFileheaderPredicate_eq, matchFileheaderPredicate_eq, cleanPred_eq, kindOf_cleanKind,
    matchKind_cleanKind]

/-! ### The canonical list -/

theorem mem_foldl_keepNew {preds out : List FileheaderPredicate} {found : FileheaderPredicate} :
    found ∈ preds.foldl keepNew out ↔ found ∈ out ∨ ∃ pred ∈ preds, cleanPred pred = found := by
  induction preds generalizing out with
  | nil => simp
  | cons first rest ih =>
      rw [List.foldl_cons, ih]
      unfold keepNew
      by_cases known : cleanPred first ∈ out
      · rw [if_pos known]
        constructor
        · rintro (old | ⟨pred, member, same⟩)
          · exact Or.inl old
          · exact Or.inr ⟨pred, List.mem_cons_of_mem _ member, same⟩
        · rintro (old | ⟨pred, member, same⟩)
          · exact Or.inl old
          · rcases List.mem_cons.mp member with here | later
            · exact Or.inl (same ▸ here ▸ known)
            · exact Or.inr ⟨pred, later, same⟩
      · rw [if_neg known, List.mem_append, List.mem_singleton]
        constructor
        · rintro ((old | here) | ⟨pred, member, same⟩)
          · exact Or.inl old
          · exact Or.inr ⟨first, List.mem_cons_self, here.symm⟩
          · exact Or.inr ⟨pred, List.mem_cons_of_mem _ member, same⟩
        · rintro (old | ⟨pred, member, same⟩)
          · exact Or.inl (Or.inl old)
          · rcases List.mem_cons.mp member with here | later
            · exact Or.inl (Or.inr (same ▸ here ▸ rfl))
            · exact Or.inr ⟨pred, later, same⟩

theorem mem_cSanitizePreds {preds : List FileheaderPredicate} {found : FileheaderPredicate} :
    found ∈ cSanitizePreds preds ↔ ∃ pred ∈ preds, cleanPred pred = found := by
  unfold cSanitizePreds
  rw [mem_foldl_keepNew]
  simp only [List.not_mem_nil, false_or]

theorem nodup_foldl_keepNew {preds out : List FileheaderPredicate} (single : out.Nodup) :
    (preds.foldl keepNew out).Nodup := by
  induction preds generalizing out with
  | nil => exact single
  | cons first rest ih =>
      apply ih
      unfold keepNew
      split
      · exact single
      · rename_i fresh
        rw [List.nodup_append]
        refine ⟨single, List.nodup_singleton _, ?_⟩
        intro old member new isNew same
        rw [List.mem_singleton.mp isNew] at same
        exact fresh (same ▸ member)

theorem foldl_keepNew_of_fixed {preds out : List FileheaderPredicate}
    (fixed : ∀ pred ∈ preds, cleanPred pred = pred) (single : (out ++ preds).Nodup) :
    preds.foldl keepNew out = out ++ preds := by
  induction preds generalizing out with
  | nil => rw [List.foldl_nil, List.append_nil]
  | cons first rest ih =>
      have canonical := fixed first List.mem_cons_self
      have fresh : first ∉ out := by
        intro member
        exact (List.nodup_append.mp single).2.2 first member first List.mem_cons_self rfl
      have regroup : out ++ first :: rest = out ++ [first] ++ rest := by
        rw [List.append_assoc, List.singleton_append]
      have turn : keepNew out first = out ++ [first] := by
        unfold keepNew
        rw [canonical, if_neg fresh]
      rw [List.foldl_cons, turn, regroup]
      apply ih
      · intro pred member
        exact fixed pred (List.mem_cons_of_mem _ member)
      · rw [← regroup]
        exact single

theorem matchesAll_cSanitizePreds (config : Config) (preds : List FileheaderPredicate)
    (fh : Fileheader) :
    matchesAll config (cSanitizePreds preds) fh = matchesAll config preds fh := by
  unfold matchesAll
  rw [Bool.eq_iff_iff, List.all_eq_true, List.all_eq_true]
  constructor
  · intro all pred member
    rw [← matchFileheaderPredicate_cleanPred]
    exact all _ (mem_cSanitizePreds.mpr ⟨pred, member, rfl⟩)
  · intro all found member
    obtain ⟨pred, listed, rfl⟩ := mem_cSanitizePreds.mp member
    rw [matchFileheaderPredicate_cleanPred]
    exact all pred listed

/-! ### Once more -/

def AsksBelowZero (pred : FileheaderPredicate) : Prop :=
  kindOf pred.mode = .comments ∧ pred.comments.toInt ≤ 0 ∧ pred.score.toInt < 0

instance (pred : FileheaderPredicate) : Decidable (AsksBelowZero pred) :=
  inferInstanceAs (Decidable (_ ∧ _))

theorem Keyword.clear_clear (keyword : Keyword) : keyword.clear.clear = keyword.clear := by
  unfold Keyword.clear
  simp only [List.length_replicate]

theorem cleanKind_comments (pred : FileheaderPredicate) :
    (cleanKind pred .comments).comments =
      if 0 < pred.comments.toInt then pred.comments else pred.score := rfl

theorem cleanPred_cleanPred {pred : FileheaderPredicate} (above : ¬ AsksBelowZero pred) :
    cleanPred (cleanPred pred) = cleanPred pred := by
  rw [cleanPred_eq (cleanPred pred), cleanPred_eq pred, kindOf_cleanKind]
  generalize known : kindOf pred.mode = kind
  cases kind with
  | author | keyword | keywordExclude | title =>
      simp only [cleanKind, Keyword.clear_clear]
  | mark | solved | newpost | score | money | none => rfl
  | comments =>
      rw [cleanKind.eq_9, cleanKind_comments]
      have again : (if 0 < (if 0 < pred.comments.toInt then pred.comments else pred.score).toInt
          then (if 0 < pred.comments.toInt then pred.comments else pred.score)
          else (cleanKind pred .comments).score) =
          if 0 < pred.comments.toInt then pred.comments else pred.score := by
        by_cases asked : 0 < pred.comments.toInt
        · rw [if_pos asked, if_pos asked]
        · rw [if_neg asked]
          by_cases positive : 0 < pred.score.toInt
          · rw [if_pos positive]
          · rw [if_neg positive]
            have exact : pred.score.toInt = 0 := by
              have nonneg : ¬ pred.score.toInt < 0 := by
                intro negative
                exact above ⟨known, by omega, negative⟩
              omega
            exact (Int32.toInt_inj.mp exact).symm
      rw [again]
      rfl

theorem cleanPred_twice_nonneg (pred : FileheaderPredicate) :
    0 ≤ (cleanPred (cleanPred pred)).comments.toInt := by
  rw [cleanPred_eq (cleanPred pred), cleanPred_eq pred, kindOf_cleanKind]
  generalize kindOf pred.mode = kind
  cases kind with
  | comments =>
      rw [cleanKind_comments]
      split
      · rename_i positive
        omega
      · exact Int.le_refl 0
  | mark | solved | newpost | author | keyword | keywordExclude | title | score | money | none =>
      exact Int.le_refl 0

theorem AsksBelowZero.comments_neg {pred : FileheaderPredicate} (below : AsksBelowZero pred) :
    (cleanPred pred).comments.toInt < 0 := by
  obtain ⟨kind, comments, score⟩ := below
  rw [cleanPred_eq, kind, cleanKind_comments, if_neg (by omega)]
  exact score

theorem cSanitizePreds_stable_iff (preds : List FileheaderPredicate) :
    cSanitizePreds (cSanitizePreds preds) = cSanitizePreds preds ↔
      ∀ pred ∈ preds, ¬ AsksBelowZero pred := by
  constructor
  · intro stable pred member below
    have listed : cleanPred pred ∈ cSanitizePreds (cSanitizePreds preds) := by
      rw [stable]
      exact mem_cSanitizePreds.mpr ⟨pred, member, rfl⟩
    -- what a second call leaves is canonical twice over
    obtain ⟨first, inFirst, same⟩ := mem_cSanitizePreds.mp listed
    obtain ⟨origin, _, rfl⟩ := mem_cSanitizePreds.mp inFirst
    have nonneg := cleanPred_twice_nonneg origin
    rw [same] at nonneg
    have negative := below.comments_neg
    omega
  · intro above
    have fixed : ∀ found ∈ cSanitizePreds preds, cleanPred found = found := by
      intro found member
      obtain ⟨pred, listed, rfl⟩ := mem_cSanitizePreds.mp member
      exact cleanPred_cleanPred (above pred listed)
    have single : ([] ++ cSanitizePreds preds).Nodup := nodup_foldl_keepNew List.nodup_nil
    exact foldl_keepNew_of_fixed fixed single

/-! ### The cache key -/

theorem Keyword.bytes_length (keyword : Keyword) : keyword.bytes.length = ttLen + 1 := by
  have size := keyword.size
  unfold Keyword.bytes
  rw [List.length_append, List.length_cons]
  omega

theorem Keyword.text_bytes (keyword : Keyword) :
    keyword.bytes.takeWhile (· ≠ 0) = keyword.text := by
  unfold Keyword.bytes
  rw [List.takeWhile_append_of_pos]
  · rw [List.takeWhile_cons_of_neg (by decide), List.append_nil]
  · intro byte member
    exact decide_eq_true (keyword.noNul byte member)

theorem Keyword.bytes_inj {left right : Keyword} (same : left.bytes = right.bytes) :
    left = right := by
  have text : left.text = right.text := by
    rw [← left.text_bytes, same, right.text_bytes]
  have behind : left.behind = right.behind := by
    unfold Keyword.bytes at same
    rw [text] at same
    exact (List.cons.inj (List.append_cancel_left same)).2
  cases left
  cases right
  cases text
  cases behind
  rfl

namespace FileheaderPredicate

theorem wordBytes_length (value : UInt32) : (wordBytes value).length = 4 := by
  rw [wordBytes, List.length_reverse, putUint32_length]

theorem wordBytes_inj {left right : UInt32} (same : wordBytes left = wordBytes right) :
    left = right :=
  putUint32_inj.mp (List.reverse_inj.mp same)

theorem bytes_length (pred : FileheaderPredicate) : pred.bytes.length = 84 := by
  unfold bytes
  simp only [List.length_append, wordBytes_length, Keyword.bytes_length, List.length_cons,
    List.length_nil, ttLen]

theorem bytes_inj {left right : FileheaderPredicate} (same : left.bytes = right.bytes) :
    left = right := by
  have words : ∀ value other : UInt32, (wordBytes value).length = (wordBytes other).length := by
    intro value other
    rw [wordBytes_length, wordBytes_length]
  unfold bytes at same
  obtain ⟨mode, same⟩ := List.append_inj same (words _ _)
  obtain ⟨keyword, same⟩ := List.append_inj same
    (by rw [Keyword.bytes_length, Keyword.bytes_length])
  obtain ⟨padding, same⟩ := List.append_inj same rfl
  obtain ⟨score, same⟩ := List.append_inj same (words _ _)
  obtain ⟨money, comments⟩ := List.append_inj same (words _ _)
  have padding' : left.padding = right.padding := by
    simp only [List.cons.injEq, and_true] at padding
    exact Prod.ext padding.1 (Prod.ext padding.2.1 padding.2.2)
  have numbers : ∀ {value other : Int32}, wordBytes value.toUInt32 = wordBytes other.toUInt32 →
      value = other := by
    intro value other equal
    rw [← Int32.toInt32_toUInt32 value, wordBytes_inj equal, Int32.toInt32_toUInt32]
  cases left
  cases right
  simp only [mk.injEq]
  exact ⟨wordBytes_inj mode, Keyword.bytes_inj keyword, padding', numbers score, numbers money,
    numbers comments⟩

theorem flatMap_bytes_inj {left right : List FileheaderPredicate}
    (same : left.flatMap bytes = right.flatMap bytes) : left = right := by
  induction left generalizing right with
  | nil =>
      cases right with
      | nil => rfl
      | cons first rest =>
          have lengths := congrArg List.length same
          rw [List.flatMap_nil, List.flatMap_cons, List.length_append, bytes_length,
            List.length_nil] at lengths
          omega
  | cons first rest ih =>
      cases right with
      | nil =>
          have lengths := congrArg List.length same
          rw [List.flatMap_nil, List.flatMap_cons, List.length_append, bytes_length,
            List.length_nil] at lengths
          omega
      | cons other others =>
          rw [List.flatMap_cons, List.flatMap_cons] at same
          obtain ⟨here, later⟩ := List.append_inj same (by rw [bytes_length, bytes_length])
          rw [bytes_inj here, ih later]

end FileheaderPredicate

def predsKey (preds : List FileheaderPredicate) : Bytes :=
  (cSanitizePreds preds).flatMap FileheaderPredicate.bytes

theorem matchingRecords_of_predsKey_eq (config : Config)
    {left right : List FileheaderPredicate} (same : predsKey left = predsKey right)
    (dir : List Fileheader) :
    matchingRecords config left dir = matchingRecords config right dir := by
  have canonical := FileheaderPredicate.flatMap_bytes_inj same
  have matchesSame : matchesAll config left = matchesAll config right := by
    funext fh
    rw [← matchesAll_cSanitizePreds, canonical, matchesAll_cSanitizePreds]
  unfold matchingRecords
  rw [matchesSame]

/-! ### What a canonical form is for -/

/-- The predicates after `c_sanitize_preds` mean what they meant before, none stands there
twice, a second call changes nothing, and equal bytes find the same records. -/
structure Canonicalises (config : Config) (preds : List FileheaderPredicate) : Prop where
  meaning : ∀ fh, matchesAll config (cSanitizePreds preds) fh = matchesAll config preds fh
  single : (cSanitizePreds preds).Nodup
  stable : cSanitizePreds (cSanitizePreds preds) = cSanitizePreds preds
  key : ∀ other, predsKey preds = predsKey other →
    ∀ dir, matchingRecords config preds dir = matchingRecords config other dir

theorem canonicalises_iff (config : Config) (preds : List FileheaderPredicate) :
    Canonicalises config preds ↔ ∀ pred ∈ preds, ¬ AsksBelowZero pred := by
  constructor
  · intro canonicalises
    exact (cSanitizePreds_stable_iff preds).mp canonicalises.stable
  · intro above
    exact
      { meaning := matchesAll_cSanitizePreds config preds
        single := nodup_foldl_keepNew List.nodup_nil
        stable := (cSanitizePreds_stable_iff preds).mpr above
        key := fun _ same dir => matchingRecords_of_predsKey_eq config same dir }

/-- A search for at least -5 comments: the first call asks for -5 and the second for 0. -/
theorem below_zero_not_canonical :
    ¬ Canonicalises { mbIsUtf8 := false }
      [{ FileheaderPredicate.zero with mode := rsComments, score := -5 }] := by
  intro canonicalises
  have stable := canonicalises.stable
  revert stable
  decide

end Pttbbs.SearchSvc
