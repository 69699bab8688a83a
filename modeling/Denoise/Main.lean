import Denoise.CommandLine

/-!
# The tool

    <input.wav> <output.wav> [--config settings.json] [--hold]

Reads the files, calls the library, and writes the file.  A failure is written to
the error stream, and the tool then exits with status 1.
-/

namespace Denoise.CommandLine

/-- The content of a file, if it can be read. -/
def contentOf? (name : String) : IO (Option (List UInt8)) := do
  try
    let content ← IO.FS.readBinFile name
    return some content.toList
  catch _ => return none

/-- Whether a content could be written to a file. -/
def store (name : String) (content : List UInt8) : IO Bool := do
  try
    IO.FS.writeBinFile name content.toByteArray
    return true
  catch _ => return false

/-- The status of a failure, which is reported. -/
def fail (failure : Failure) : IO UInt32 := do
  IO.eprintln ("Error: " ++ failure.message)
  return 1

/-- The tool, called with arguments. -/
def call (arguments : List String) : IO UInt32 := do
  match Arguments.ofList arguments with
  | .error failure => fail failure
  | .ok a =>
    let settings ← match a.settings with
      | none => pure none
      | some name => contentOf? name
    let input ← contentOf? a.input
    match a.result settings input with
    | .error failure => fail failure
    | .ok recording =>
      if ← store a.output (Wave.toBytes recording) then return 0
      else fail (.creating a.output)

end Denoise.CommandLine

/-- The tool. -/
def main (arguments : List String) : IO UInt32 := Denoise.CommandLine.call arguments
