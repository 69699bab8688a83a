import Denoise.Settings.Document

/-!
# Loading settings

Settings come from a text or from the bytes of a file.  They are used only if
they are read in full and break no rule.
-/

namespace Denoise.Settings

/-- Why settings cannot be loaded. -/
inductive LoadFailure where
  /-- There is no file. -/
  | missing
  /-- The bytes of the file encode no text. -/
  | notText
  /-- The text is no settings document. -/
  | document (failure : DocumentFailure)
  /-- The settings break a rule. -/
  | invalid (violation : Violation)
deriving DecidableEq

/-- The settings of a text. -/
def ofText (text : List Char) : Except LoadFailure Settings :=
  match ofDocument text with
  | .error failure => .error (.document failure)
  | .ok s =>
    match s.violation? with
    | some violation => .error (.invalid violation)
    | none => .ok s

/-- The text that some bytes encode. -/
def textOf? (bytes : List UInt8) : Option (List Char) :=
  (String.fromUTF8? bytes.toByteArray).map String.toList

/-- The settings of a file, if there is one. -/
def ofFile : Option (List UInt8) → Except LoadFailure Settings
  | none => .error .missing
  | some bytes =>
    match textOf? bytes with
    | none => .error .notText
    | some text => ofText text

/-- A document that is read in full can still break a rule. -/
example : (ofText "\x7b\"noise_frames\": 0\x7d".toList).toOption = none := by decide +kernel

end Denoise.Settings
