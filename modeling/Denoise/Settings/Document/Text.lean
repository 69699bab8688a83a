/-!
# The text of a settings document

A settings document is a JSON text.  It is read from left to right in one pass,
and the first thing wrong with it decides how the reading fails.

* `incomplete`: the text ended too early.
* `malformed`: it is not JSON at this place, or a number is out of range.
* `mismatched`: well formed so far, but not what a settings document says here:
  a value of the wrong kind, a field given twice.

Here are blanks, words and strings.  A string that is read is checked in full.
One that is skipped is only checked for its form, so the pairing of escaped
surrogates does not matter there.

Every loop is bounded by the length of the text, since each turn uses up a
character.  The bound is passed as a count of `turns`.
-/

namespace Denoise.Settings

/-- How the reading of a document fails. -/
inductive DocumentFailure where
  /-- The text ended too early. -/
  | incomplete
  /-- The text is not JSON here, or a number is out of range. -/
  | malformed
  /-- A value of the wrong kind, or a field given twice. -/
  | mismatched
deriving DecidableEq, Repr

/-- A reading may fail.  One that does not gives what was read and the text
after it. -/
abbrev Reading := Except DocumentFailure

/-! ## Characters -/

/-- The blanks between the parts of a document. -/
def isBlank (c : Char) : Bool := c == ' ' || c == '\n' || c == '\t' || c == '\r'

/-- The text from its next character that is no blank. -/
def skipBlanks (text : List Char) : List Char := text.dropWhile isBlank

/-- The value of a hexadecimal digit. -/
def hexDigit? (c : Char) : Option Nat :=
  if c.isDigit then some (c.toNat - '0'.toNat)
  else if 'a' ≤ c ∧ c ≤ 'f' then some (c.toNat - 'a'.toNat + 10)
  else if 'A' ≤ c ∧ c ≤ 'F' then some (c.toNat - 'A'.toNat + 10)
  else none

/-- The rest of a word whose first letter has been seen. -/
def readWord : List Char → List Char → Reading (Unit × List Char)
  | [], text => .ok ((), text)
  | _ :: _, [] => .error .incomplete
  | c :: word, d :: text => if c = d then readWord word text else .error .malformed

/-! ## Strings -/

/-- The number of bytes that a text takes. -/
def byteCount (text : List Char) : Nat := text.foldl (fun count c => count + c.utf8Size) 0

/-- Four hexadecimal digits.  The text ends too early if fewer than four bytes
are left. -/
def readHex (text : List Char) : Reading (Nat × List Char) :=
  match text with
  | a :: b :: c :: d :: rest =>
    match hexDigit? a, hexDigit? b, hexDigit? c, hexDigit? d with
    | some a, some b, some c, some d => .ok (((a * 16 + b) * 16 + c) * 16 + d, rest)
    | _, _, _, _ => .error .malformed
  | _ => if byteCount text < 4 then .error .incomplete else .error .malformed

/-- The character that a short escape stands for. -/
def shortEscape? : Char → Option Char
  | '"' => some '"'
  | '\\' => some '\\'
  | '/' => some '/'
  | 'b' => some '\x08'
  | 'f' => some '\x0c'
  | 'n' => some '\n'
  | 'r' => some '\r'
  | 't' => some '\t'
  | _ => none

/-- Whether a code unit is the first of a surrogate pair. -/
def isLeading (unit : Nat) : Bool := 0xd800 ≤ unit && unit < 0xdc00

/-- Whether a code unit is the second of a surrogate pair. -/
def isTrailing (unit : Nat) : Bool := 0xdc00 ≤ unit && unit < 0xe000

/-- The second half of a surrogate pair, as an escape of its own. -/
def readTrailing (leading : Nat) : List Char → Reading (Char × List Char)
  | [] => .error .incomplete
  | ['\\'] => .error .incomplete
  | '\\' :: 'u' :: text => do
    let (unit, rest) ← readHex text
    if isTrailing unit then
      .ok (.ofNat (0x10000 + (leading - 0xd800) * 0x400 + (unit - 0xdc00)), rest)
    else .error .malformed
  | _ => .error .malformed

/-- What follows the backslash of an escape.  Surrogates must come in pairs. -/
def readEscape : List Char → Reading (Char × List Char)
  | [] => .error .incomplete
  | 'u' :: text => do
    let (unit, rest) ← readHex text
    if isTrailing unit then .error .malformed
    else if isLeading unit then readTrailing unit rest
    else .ok (.ofNat unit, rest)
  | c :: rest =>
    match shortEscape? c with
    | some c => .ok (c, rest)
    | none => .error .malformed

/-- What follows the backslash of an escape in a skipped string. -/
def skipEscape : List Char → Reading (Unit × List Char)
  | [] => .error .incomplete
  | 'u' :: text => do
    let (_, rest) ← readHex text
    .ok ((), rest)
  | c :: rest => if (shortEscape? c).isSome then .ok ((), rest) else .error .malformed

/-- A string after its opening quote.  Control characters must be escaped. -/
def readString (turns : Nat) (text : List Char) : Reading (List Char × List Char) :=
  match turns, text with
  | _, [] => .error .incomplete
  | 0, _ => .error .incomplete
  | turns + 1, c :: rest =>
    if c = '"' then .ok ([], rest)
    else if c = '\\' then do
      let (d, rest) ← readEscape rest
      let (ds, rest) ← readString turns rest
      .ok (d :: ds, rest)
    else if c.toNat < 0x20 then .error .malformed
    else do
      let (ds, rest) ← readString turns rest
      .ok (c :: ds, rest)

/-- A skipped string after its opening quote. -/
def skipString (turns : Nat) (text : List Char) : Reading (Unit × List Char) :=
  match turns, text with
  | _, [] => .error .incomplete
  | 0, _ => .error .incomplete
  | turns + 1, c :: rest =>
    if c = '"' then .ok ((), rest)
    else if c = '\\' then do
      let (_, rest) ← skipEscape rest
      skipString turns rest
    else if c.toNat < 0x20 then .error .malformed
    else skipString turns rest

end Denoise.Settings
