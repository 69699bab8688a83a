import Denoise.Settings
import Denoise.Settings.Document.Skipping

/-!
# Reading a settings document

An object names its fields.  Those it leaves out keep their defaults, and those
that no setting has are skipped.  An array gives the fields in their order of
declaration, and those after its end keep their defaults.

A value of the wrong kind is a mismatch as soon as it is known to be one.  A
string, a word or a number is read for that, a container is not.
-/

namespace Denoise.Settings

/-! ## Values of a field -/

/-- The failure of a value that is not of the kind asked for.  It is read as far
as it takes to know that it is well formed up to there. -/
def mismatch (text : List Char) : DocumentFailure :=
  let after {α : Type} : Reading α → DocumentFailure
    | .ok _ => .mismatched
    | .error failure => failure
  match text with
  | [] => .incomplete
  | c :: rest =>
    if c = '[' ∨ c = '\x7b' then .mismatched
    else if c = 'n' then after (readWord "ull".toList rest)
    else if c = 't' then after (readWord "rue".toList rest)
    else if c = 'f' then after (readWord "alse".toList rest)
    else if c = '"' then after (readString (rest.length + 1) rest)
    else if c = '-' then after (readNumber true rest)
    else if c.isDigit then after (readNumber false text)
    else .malformed

/-- A value that has to be a number. -/
def readNumeral (text : List Char) : Reading (Number × List Char) :=
  match skipBlanks text with
  | [] => .error .incomplete
  | c :: rest =>
    if c = '-' then readNumber true rest
    else if c.isDigit then readNumber false (c :: rest)
    else .error (mismatch (c :: rest))

/-- A value that has to be a count: a whole number below `2^64`, written without
point and exponent. -/
def readCount (text : List Char) : Reading (Nat × List Char) := do
  match ← readNumeral text with
  | (.natural n, rest) => .ok (n, rest)
  | _ => .error .mismatched

/-- A value that has to be a single.  A whole number goes there directly, any
other through a double, and overflow gives an infinity. -/
def readSingle (text : List Char) : Reading (Float32 × List Char) := do
  match ← readNumeral text with
  | (.natural n, rest) => .ok (n.toUInt64.toFloat32, rest)
  | (.negative n, rest) => .ok (-n.toUInt64.toFloat32, rest)
  | (.real x, rest) => .ok (narrow x, rest)

/-- A value that has to be a switch. -/
def readSwitch (text : List Char) : Reading (Bool × List Char) :=
  match skipBlanks text with
  | [] => .error .incomplete
  | c :: rest =>
    if c = 't' then (readWord "rue".toList rest).map fun r => (true, r.2)
    else if c = 'f' then (readWord "alse".toList rest).map fun r => (false, r.2)
    else .error (mismatch (c :: rest))

/-- The value of a field, put into the settings. -/
def Slot.read (s : Settings) (slot : Slot) (text : List Char) :
    Reading (Settings × List Char) := do
  match slot with
  | .count _ set => let (v, rest) ← readCount text; .ok (set v s, rest)
  | .number _ set => let (v, rest) ← readSingle text; .ok (set v s, rest)
  | .switch _ set => let (v, rest) ← readSwitch text; .ok (set v s, rest)

/-! ## The document -/

/-- The colon after a name. -/
def readColon (text : List Char) : Reading (Unit × List Char) :=
  match skipBlanks text with
  | [] => .error .incomplete
  | c :: rest => if c = ':' then .ok ((), rest) else .error .malformed

/-- One member of the outer object, after the opening quote of its name.  `seen`
holds the names of the fields given before. -/
def readMember (s : Settings) (seen : List (List Char)) (text : List Char) :
    Reading ((Settings × List (List Char)) × List Char) := do
  let (name, rest) ← readString (text.length + 1) text
  match field? name with
  | some f =>
    if seen.contains name then .error .mismatched
    else do
      let (_, rest) ← readColon rest
      let (s, rest) ← f.slot.read s rest
      .ok ((s, name :: seen), rest)
  | none => do
    let (_, rest) ← readColon rest
    let (_, rest) ← skipValue rest
    .ok ((s, seen), rest)

/-- The members of the outer object, up to its closing bracket. -/
def readMembers (turns : Nat) (first : Bool) (s : Settings) (seen : List (List Char))
    (text : List Char) : Reading (Settings × List Char) :=
  match turns with
  | 0 => .error .incomplete
  | turns + 1 =>
    match skipBlanks text with
    | [] => .error .incomplete
    | c :: rest =>
      if c = '\x7d' then .ok (s, rest)
      else do
        let next ← if first then .ok (c :: rest)
          else if c = ',' then .ok (skipBlanks rest)
          else .error .malformed
        match next with
        | [] => .error .incomplete
        | d :: rest =>
          if d = '"' then do
            let ((s, seen), rest) ← readMember s seen rest
            readMembers turns false s seen rest
          else .error .malformed

/-- The elements of the outer array, one for each field in turn, and its closing
bracket. -/
def readElements (s : Settings) (first : Bool) (text : List Char) :
    List Field → Reading (Settings × List Char)
  | [] =>
    match skipBlanks text with
    | [] => .error .incomplete
    | c :: rest => if c = ']' then .ok (s, rest) else .error .malformed
  | f :: later =>
    match skipBlanks text with
    | [] => .error .incomplete
    | c :: rest =>
      if c = ']' then .ok (s, rest)
      else if first then do
        let (s, rest) ← f.slot.read s (c :: rest)
        readElements s false rest later
      else if c = ',' then
        match skipBlanks rest with
        | [] => .error .incomplete
        | d :: rest =>
          if d = ']' then .error .malformed
          else do
            let (s, rest) ← f.slot.read s (d :: rest)
            readElements s false rest later
      else .error .malformed

/-- The settings that a document states.  Nothing but blanks may follow it. -/
def ofDocument (text : List Char) : Except DocumentFailure Settings := do
  let (s, rest) ←
    match skipBlanks text with
    | [] => .error .incomplete
    | c :: rest =>
      if c = '\x7b' then readMembers (rest.length + 1) true {} [] rest
      else if c = '[' then readElements {} true rest fields
      else .error (mismatch (c :: rest))
  if skipBlanks rest = [] then .ok s else .error .malformed

example : (ofDocument "\x7b \"noise_frames\": 6, \"auto_retrain\": false \x7d".toList).toOption
    = some { noiseFrames := 6, autoRetrain := false } := by decide +kernel
example : (ofDocument "[3, 500]".toList).toOption
    = some { noiseFrames := 3, switchInterval := 500 } := by decide +kernel
/-- What no setting has is skipped. -/
example : (ofDocument "\x7b\"a\": [1e999, \x7b\"b\": \"\\ud800\"\x7d]\x7d".toList).toOption
    = some {} := by decide +kernel

/-- How the reading of a document fails, if it does. -/
def failure? (text : List Char) : Option DocumentFailure :=
  match ofDocument text with
  | .ok _ => none
  | .error failure => some failure

/-- The first failure from the left decides. -/
example : failure? "\x7b\"noise_frames\": 1.0, !".toList = some .mismatched
    ∧ failure? "\x7b\"noise_frames\": 1, !".toList = some .malformed
    ∧ failure? "\x7b\"noise_frames\": 1,".toList = some .incomplete := by decide +kernel

end Denoise.Settings
