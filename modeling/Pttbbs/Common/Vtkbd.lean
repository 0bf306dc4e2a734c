/-
The keyboard parser of a virtual terminal.

A byte is fed at a time; the state between two bytes is the context.  The parser has no
result where the computation of a parameter overflows an `int`.
-/

import Pttbbs.Lib.Text

namespace Pttbbs.Common.Vtkbd

open Pttbbs.Lib

def vtkbdMaxParams : Nat := 8
def vtkbdMaxIntermediate : Nat := 4

def csiMaxLen : Nat := 64

def intMax : Nat := 2147483647

/-! ### Key codes -/

def keyESC : Nat := 27
def keyENTER : Nat := 13
def keyBS : Nat := 8
def keyUP : Nat := 0xD901
def keySTAB : Nat := 0xD909
def keyHOME : Nat := 0xDA01
def keyINS : Nat := 0xDA02
def keyDEL : Nat := 0xDA03
def keyEND : Nat := 0xDA04
def keyPGUP : Nat := 0xDA05
def keyPGDN : Nat := 0xDA06
def keyF1 : Nat := 0xDB01
def keyF6 : Nat := 0xDB06
def keyF9 : Nat := 0xDB09
def keyF11 : Nat := 0xDB0B
def keyINCOMPLETE : Nat := 0xDC20
def keyUNKNOWN : Nat := 0xDF20
def keyMOUSE : Nat := 0xDD01
def keyMOUSERELEASE : Nat := 0xDD02

def mouseBtnWheelUp : Nat := 64
def mouseBtnWheelDown : Nat := 65

inductive VkState where
  | normal
  | esc
  | escApp
  | csi
deriving DecidableEq, Repr

structure Mouse where
  x : Nat := 0
  y : Nat := 0
  button : Nat := 0
  isRelease : Bool := false
  isMotion : Bool := false
  flags : Nat := 0
deriving DecidableEq, Repr

structure VtkbdCtx where
  state : VkState := .normal
  escArg : UInt8 := 0
  mouse : Mouse := {}
  csiPrefix : UInt8 := 0
  csiParams : List Nat := List.replicate vtkbdMaxParams 0
  csiParamCount : Nat := 0
  csiHasParam : Bool := false
  csiInterCount : Nat := 0
  csiIntermediate : List UInt8 := List.replicate vtkbdMaxIntermediate 0
  csiLen : Nat := 0
deriving DecidableEq, Repr

def vtkbdResetCsi (ctx : VtkbdCtx) : VtkbdCtx :=
  { ctx with
    csiPrefix := 0
    csiParams := List.replicate vtkbdMaxParams 0
    csiParamCount := 0
    csiHasParam := false
    csiInterCount := 0
    csiIntermediate := List.replicate vtkbdMaxIntermediate 0
    csiLen := 0 }

def plainKey (c : UInt8) : Nat := if c = 0x08 ∨ c = 0x7F then keyBS else c.toNat

def appKey (c : UInt8) : Nat :=
  if 65 ≤ c ∧ c ≤ 68 then keyUP + (c.toNat - 65)          -- A..D
  else if c = 72 then keyHOME                             -- H
  else if c = 70 then keyEND                              -- F
  else if c = 71 then keyPGDN                             -- G
  else if c = 73 then keyPGUP                             -- I
  else if c = 76 then keyINS                              -- L
  else if 80 ≤ c ∧ c ≤ 83 then keyF1 + (c.toNat - 80)     -- P..S
  else if c = 119 then keyDEL                             -- w
  else if 112 ≤ c ∧ c ≤ 121 then 48 + (c.toNat - 112)     -- p..y
  else if c = 77 then keyENTER                            -- M
  else if c = 88 then 61                                  -- X
  else if 106 ≤ c ∧ c ≤ 111 then 42 + (c.toNat - 106)     -- j..o
  else keyUNKNOWN

def tildeKey (p0 : Nat) : Nat :=
  if p0 = 1 then keyHOME
  else if p0 = 2 then keyINS
  else if p0 = 3 then keyDEL
  else if p0 = 4 then keyEND
  else if p0 = 5 then keyPGUP
  else if p0 = 6 then keyPGDN
  else if p0 = 7 then keyHOME
  else if p0 = 8 then keyEND
  else if 11 ≤ p0 ∧ p0 ≤ 15 then keyF1 + (p0 - 11)
  else if 17 ≤ p0 ∧ p0 ≤ 19 then keyF6 + (p0 - 17)
  else if 20 ≤ p0 ∧ p0 ≤ 21 then keyF9 + (p0 - 20)
  else if 23 ≤ p0 ∧ p0 ≤ 24 then keyF11 + (p0 - 23)
  else keyUNKNOWN

def standardKey (p0 : Nat) (c : UInt8) : Nat :=
  if 65 ≤ c ∧ c ≤ 68 then keyUP + (c.toNat - 65)          -- A..D
  else if c = 72 then keyHOME                             -- H
  else if c = 70 then keyEND                              -- F
  else if c = 71 then keyPGDN                             -- G
  else if c = 73 then keyPGUP                             -- I
  else if c = 76 then keyINS                              -- L
  else if c = 90 then keySTAB                             -- Z
  else if c = 126 then tildeKey p0
  else keyUNKNOWN

def reportedMouse (btnRaw col row : Nat) (release : Bool) : Mouse :=
  { x := col - 1
    y := row - 1
    isRelease := release
    isMotion := btnRaw &&& 32 != 0
    flags := btnRaw &&& (4 ||| 8 ||| 16)
    button :=
      if btnRaw &&& mouseBtnWheelUp ≠ 0 then
        if btnRaw &&& 1 ≠ 0 then mouseBtnWheelDown else mouseBtnWheelUp
      else btnRaw &&& 3 }

def isFinal (c : UInt8) : Bool := 0x40 ≤ c && c ≤ 0x7E

def csiFinal (c : UInt8) (ctx : VtkbdCtx) : VtkbdCtx × Nat :=
  let ctx := { ctx with state := .normal }
  if ctx.csiPrefix = 60 ∧ (c = 77 ∨ c = 109) then          -- '<' with M or m
    let col := if ctx.csiParamCount > 1 then ctx.csiParams.getD 1 0 else 0
    let row := if ctx.csiParamCount > 2 then ctx.csiParams.getD 2 0 else 0
    let mouse := reportedMouse (ctx.csiParams.getD 0 0) col row (c == 109)
    ({ ctx with mouse := mouse }, if c = 109 then keyMOUSERELEASE else keyMOUSE)
  else if ctx.csiPrefix ≠ 0 then (ctx, keyUNKNOWN)
  else (ctx, standardKey (ctx.csiParams.getD 0 0) c)

def isParameter (c : UInt8) : Bool := 0x30 ≤ c && c ≤ 0x3F

def isPrivate (c : UInt8) : Bool := c == 60 || c == 63 || c == 61 || c == 62

def csiDigit (c : UInt8) (ctx : VtkbdCtx) : Option VtkbdCtx :=
  let ctx :=
    if ctx.csiHasParam then ctx
    else
      { ctx with
        csiHasParam := true
        csiParamCount := if ctx.csiParamCount = 0 then 1 else ctx.csiParamCount }
  let idx := if ctx.csiParamCount > 0 then ctx.csiParamCount - 1 else 0
  if idx < vtkbdMaxParams then
    let value := ctx.csiParams.getD idx 0 * 10 + (c.toNat - 48)
    if value > intMax then none else some { ctx with csiParams := ctx.csiParams.set idx value }
  else some ctx

def csiParameter (c : UInt8) (ctx : VtkbdCtx) : Option VtkbdCtx :=
  if ctx.csiInterCount > 0 then some ctx
  else if ctx.csiLen = 1 ∧ isPrivate c then some { ctx with csiPrefix := c }
  else if c = 59 ∨ c = 58 then
    some { ctx with
      csiParamCount :=
        if ctx.csiParamCount < vtkbdMaxParams then ctx.csiParamCount + 1 else ctx.csiParamCount
      csiHasParam := false }
  else if isDigitByte c then csiDigit c ctx
  else some ctx

def csiIntermediateByte (c : UInt8) (ctx : VtkbdCtx) : VtkbdCtx :=
  if ctx.csiInterCount < vtkbdMaxIntermediate then
    { ctx with
      csiIntermediate := ctx.csiIntermediate.set ctx.csiInterCount c
      csiInterCount := ctx.csiInterCount + 1 }
  else ctx

def processCsi (c : UInt8) (ctx : VtkbdCtx) : Option (VtkbdCtx × Nat) :=
  if c = 27 then some ({ ctx with state := .esc }, keyINCOMPLETE)
  else
    let ctx := { ctx with csiLen := ctx.csiLen + 1 }
    if ctx.csiLen > csiMaxLen then some ({ ctx with state := .normal }, keyUNKNOWN)
    else if c < 0x20 ∨ c = 0x7F then some ({ ctx with state := .normal }, plainKey c)
    else if c > 0x7E then some ({ ctx with state := .normal }, keyUNKNOWN)
    else if isParameter c then (csiParameter c ctx).map fun ctx => (ctx, keyINCOMPLETE)
    else if c ≤ 0x2F then some (csiIntermediateByte c ctx, keyINCOMPLETE)
    else some (csiFinal c ctx)

def vtkbdProcess (c : UInt8) (ctx : VtkbdCtx) : Option (VtkbdCtx × Nat) :=
  match ctx.state with
  | .normal =>
      if c = 27 then some ({ ctx with state := .esc }, keyINCOMPLETE)
      else some (ctx, plainKey c)
  | .esc =>
      if c = 91 then some ({ vtkbdResetCsi ctx with state := .csi }, keyINCOMPLETE)
      else if c = 79 then some ({ ctx with state := .escApp }, keyINCOMPLETE)
      else some ({ ctx with escArg := c, state := .normal }, keyESC)
  | .escApp => some ({ ctx with state := .normal }, appKey c)
  | .csi => processCsi c ctx

def processAll (ctx : VtkbdCtx) : List UInt8 → Option (VtkbdCtx × List Nat)
  | [] => some (ctx, [])
  | c :: rest =>
      (vtkbdProcess c ctx).bind fun (next, key) =>
        (processAll next rest).map fun (last, keys) => (last, key :: keys)

/-! ### What the grammar says -/

def IsParameterString (body : Bytes) : Prop := ∀ c ∈ body, isDigitByte c = true ∨ c = 59

/-- The parameters of a parameter string; only the first ones are kept. -/
def parametersOf (body : Bytes) : List Nat :=
  if body = [] then [] else ((splitOn 59 body).take vtkbdMaxParams).map digitsValue

def interpret (marker : UInt8) (params : List Nat) (final : UInt8) (mouse : Mouse) : Mouse × Nat :=
  if marker = 60 ∧ (final = 77 ∨ final = 109) then
    (reportedMouse (params.getD 0 0) (params.getD 1 0) (params.getD 2 0) (final == 109),
      if final = 109 then keyMOUSERELEASE else keyMOUSE)
  else if marker ≠ 0 then (mouse, keyUNKNOWN)
  else (mouse, standardKey (params.getD 0 0) final)

end Pttbbs.Common.Vtkbd
