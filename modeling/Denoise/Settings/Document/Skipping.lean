import Denoise.Settings.Document.Number

/-!
# Skipped values

The value of a name that no setting has.  It is only checked for its form: the
size of a number does not matter, nor does the depth of the brackets.
-/

namespace Denoise.Settings

/-- A skipped number after its sign.  One that breaks off is malformed, also at
the end of the text. -/
def skipNumber (text : List Char) : Reading (Unit × List Char) :=
  let (whole, rest) := spanDigits text
  if whole = [] ∨ (whole.head? = some '0' ∧ 1 < whole.length) then .error .malformed
  else
    let afterPoint : Option (List Char) := match rest with
      | '.' :: rest =>
        let (places, rest) := spanDigits rest
        if places = [] then none else some rest
      | _ => some rest
    match afterPoint with
    | none => .error .malformed
    | some rest =>
      if rest.head? = some 'e' ∨ rest.head? = some 'E' then
        let signed := rest.drop 1
        let unsigned :=
          if signed.head? = some '+' ∨ signed.head? = some '-' then signed.drop 1 else signed
        let (power, rest) := spanDigits unsigned
        if power = [] then .error .malformed else .ok ((), rest)
      else .ok ((), rest)

/-- The brackets of an open container. -/
inductive Bracket where
  /-- An array. -/
  | square
  /-- An object. -/
  | curly
deriving DecidableEq

/-- Where the skipping of a value stands. -/
inductive SkipState where
  /-- Before a value. -/
  | value
  /-- Behind an opening bracket. -/
  | opened
  /-- Behind a value. -/
  | closed
  /-- Before the name of a member. -/
  | member

/-- Skips one value.  The open brackets are a list and not a recursion, so the
depth of a skipped value has no limit. -/
def skipFrom (turns : Nat) (state : SkipState) (opened : List Bracket) (text : List Char) :
    Reading (Unit × List Char) :=
  match turns with
  | 0 => .error .incomplete
  | turns + 1 =>
    match state with
    | .value =>
      match skipBlanks text with
      | [] => .error .incomplete
      | c :: rest =>
        if c = '[' then skipFrom turns .opened (.square :: opened) rest
        else if c = '\x7b' then skipFrom turns .opened (.curly :: opened) rest
        else do
          let (_, rest) ←
            if c = 'n' then readWord "ull".toList rest
            else if c = 't' then readWord "rue".toList rest
            else if c = 'f' then readWord "alse".toList rest
            else if c = '"' then skipString (rest.length + 1) rest
            else if c = '-' then skipNumber rest
            else if c.isDigit then skipNumber (c :: rest)
            else .error .malformed
          skipFrom turns .closed opened rest
    | .opened =>
      match opened, skipBlanks text with
      | [], _ => .error .malformed
      | _, [] => .error .incomplete
      | .square :: outer, c :: rest =>
        if c = ']' then skipFrom turns .closed outer rest
        else skipFrom turns .value opened (c :: rest)
      | .curly :: outer, c :: rest =>
        if c = '\x7d' then skipFrom turns .closed outer rest
        else skipFrom turns .member opened (c :: rest)
    | .closed =>
      match opened with
      | [] => .ok ((), text)
      | bracket :: outer =>
        match skipBlanks text with
        | [] => .error .incomplete
        | c :: rest =>
          if c = ',' then
            skipFrom turns (if bracket = .square then .value else .member) opened rest
          else if c = (if bracket = .square then ']' else '\x7d') then
            skipFrom turns .closed outer rest
          else .error .malformed
    | .member =>
      match skipBlanks text with
      | [] => .error .incomplete
      | c :: rest =>
        if c = '"' then do
          let (_, rest) ← skipString (rest.length + 1) rest
          match skipBlanks rest with
          | [] => .error .incomplete
          | d :: rest =>
            if d = ':' then skipFrom turns .value opened rest else .error .malformed
        else .error .malformed

/-- Skips one value. -/
def skipValue (text : List Char) : Reading (Unit × List Char) :=
  skipFrom (4 * text.length + 4) .value [] text

end Denoise.Settings
