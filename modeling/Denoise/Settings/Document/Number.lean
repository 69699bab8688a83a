import Denoise.Arithmetic
import Denoise.Settings.Document.Text

/-!
# The numbers of a settings document

A decimal is read in steps of one rounding each.  Its first digits, as many as a
64-bit word holds, make a double, which is then multiplied or divided by one
power of ten.
-/

namespace Denoise.Settings

/-- A number as it is read. -/
inductive Number where
  /-- A whole number below `2^64`. -/
  | natural (n : Nat)
  /-- A negative whole number above `-2^63`, by its magnitude. -/
  | negative (n : Nat)
  /-- Any other number. -/
  | real (x : Float)

/-- The digits at the front of a text and the text after them. -/
def spanDigits (text : List Char) : List Char × List Char :=
  (text.takeWhile Char.isDigit, text.dropWhile Char.isDigit)

/-- The value of a digit. -/
def digitValue (c : Char) : Nat := c.toNat - '0'.toNat

/-- Digits taken into a 64-bit significand until one does not fit.  The rest of
the digits is returned. -/
def accumulate (significand : Nat) : List Char → Nat × List Char
  | [] => (significand, [])
  | c :: rest =>
    if significand * 10 + digitValue c < 0x10000000000000000 then
      accumulate (significand * 10 + digitValue c) rest
    else (significand, c :: rest)

/-- A double times a power of ten, in one multiplication or division.  A power
below the smallest in range takes a division more, and two of those leave
nothing of any significand. -/
def scaleByTen (turns : Nat) (x : Float) (exponent : Int) : Option Float :=
  if exponent > 308 then if x == 0 then some x else none
  else if exponent ≥ 0 then
    let product := x * ofCount (Nat.pow 10 exponent.toNat)
    if product.isInf then none else some product
  else if exponent ≥ -308 then some (x / ofCount (Nat.pow 10 exponent.natAbs))
  else
    match turns with
    | 0 => some 0
    | turns + 1 => if x == 0 then some x else scaleByTen turns (x / 1e308) (exponent + 308)

/-- The double of a decimal, if it is in range. -/
def toReal (negative : Bool) (significand : Nat) (exponent : Int) : Except DocumentFailure Number :=
  match scaleByTen 3 significand.toUInt64.toFloat exponent with
  | some x => .ok (.real (if negative then -x else x))
  | none => .error .malformed

/-- The exponent of a number, after its letter. -/
def readExponent (text : List Char) : Reading (Int × List Char) :=
  let (negative, text) := match text with
    | '+' :: rest => (false, rest)
    | '-' :: rest => (true, rest)
    | _ => (false, text)
  match spanDigits text with
  | ([], []) => .error .incomplete
  | ([], _ :: _) => .error .malformed
  | (ds, rest) =>
    let k := ds.foldl (fun (k : Nat) c => k * 10 + digitValue c) 0
    .ok (if negative then -(k : Int) else k, rest)

/-- The exponent part of a number, if there is one. -/
def readExponentPart (text : List Char) : Reading (Int × List Char) :=
  match text with
  | 'e' :: rest => readExponent rest
  | 'E' :: rest => readExponent rest
  | _ => .ok (0, text)

/-- What follows the whole digits of a number: its fraction and its exponent.
`beyond` counts the whole digits that did not fit the significand. -/
def readTail (negative : Bool) (significand : Nat) (beyond : Nat) (text : List Char) :
    Reading (Number × List Char) :=
  match text with
  | '.' :: rest =>
    match spanDigits rest with
    | ([], []) => .error .incomplete
    | ([], _ :: _) => .error .malformed
    | (ds, rest) => do
      let (significand', dropped) := accumulate significand ds
      let (k, rest) ← readExponentPart rest
      let places : Nat := ds.length - dropped.length
      let x ← toReal negative significand' ((beyond : Int) - places + k)
      .ok (x, rest)
  | _ =>
    if text.head? = some 'e' ∨ text.head? = some 'E' ∨ 0 < beyond then do
      let (k, rest) ← readExponentPart text
      let x ← toReal negative significand (beyond + k)
      .ok (x, rest)
    else if !negative then .ok (.natural significand, text)
    else if 0 < significand ∧ significand ≤ 0x8000000000000000 then
      .ok (.negative significand, text)
    else .ok (.real (-significand.toUInt64.toFloat), text)

/-- A number after its sign.  Only a lone zero starts with a zero. -/
def readNumber (negative : Bool) (text : List Char) : Reading (Number × List Char) :=
  match spanDigits text with
  | ([], []) => .error .incomplete
  | ([], _ :: _) => .error .malformed
  | (ds, rest) =>
    if ds.head? = some '0' ∧ 1 < ds.length then .error .malformed
    else
      let (significand, beyond) := accumulate 0 ds
      readTail negative significand beyond.length rest

end Denoise.Settings
