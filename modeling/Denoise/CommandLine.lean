import Denoise.Machine
import Denoise.Offline
import Denoise.Settings.Loading
import Denoise.Wave.Writing

/-!
# The command line

The tool reads a wave file, denoises it, and writes a wave file in floating
point.  It may be given a settings document, and told to hold the noise profile
as it was learned.

`Arguments.ofList` reads the arguments.  `Arguments.result` is the content of the
file to write, given the content of the files to read.  The first thing wrong
decides the failure: the arguments, the settings, the recording, its samples,
then the engine.

The tool runs in the arithmetic of the machine.  What it does for a recording is
defined in any arithmetic (`Arguments.resultWith`).
-/

namespace Denoise.CommandLine

/-- What the arguments ask for. -/
structure Arguments where
  /-- The file to read. -/
  input : String
  /-- The file to write. -/
  output : String
  /-- The settings document, if there is one. -/
  settings : Option String
  /-- Whether the profile is held. -/
  held : Bool
deriving DecidableEq, Repr

/-- Why the tool fails. -/
inductive Failure where
  /-- Too few files are named, or too many. -/
  | usage
  /-- The name of the settings document is missing. -/
  | settingsName
  /-- The settings cannot be loaded. -/
  | settings (name : String)
  /-- The recording cannot be opened. -/
  | opening (name : String)
  /-- The samples cannot be decoded. -/
  | samples (encoding : Wave.Encoding)
  /-- There is no engine for the recording. -/
  | engine
  /-- The recording is too short. -/
  | tooShort (demand : Nat)
  /-- The output cannot be created. -/
  | creating (name : String)
deriving DecidableEq, Repr

/-- The text of a failure. -/
def Failure.message : Failure → String
  | .usage => "usage: nr_wav <input.wav> <output.wav> [--config settings.json] [--hold]"
  | .settingsName => "--config needs a path"
  | .settings name => "failed to load settings '" ++ name ++ "'"
  | .opening name => "failed to open '" ++ name ++ "'"
  | .samples .floating => "failed to decode float samples"
  | .samples .integer => "failed to decode integer samples"
  | .engine => "failed to create noise reduction engine"
  | .tooShort demand => "input too short: the first " ++ toString demand
      ++ " samples per channel are needed to learn the noise"
  | .creating name => "failed to create '" ++ name ++ "'"

namespace Arguments

/-- The arguments from here on, after some names, the newest first. -/
def read (names : List String) (settings : Option String) (held : Bool) :
    List String → Except Failure Arguments
  | [] =>
    match names with
    | [output, input] => .ok ⟨input, output, settings, held⟩
    | _ => .error .usage
  | argument :: rest =>
    if argument = "--config" then
      match rest with
      | [] => .error .settingsName
      | name :: rest => read names (some name) held rest
    else if argument = "--hold" then read names settings true rest
    else read (argument :: names) settings held rest

/-- The arguments of a call.  Of several settings documents the last counts. -/
def ofList (arguments : List String) : Except Failure Arguments := read [] none false arguments

example : (ofList ["--config", "s", "a", "--hold", "b"]).toOption
    = some ⟨"a", "b", some "s", true⟩ := by decide +kernel

/-- The settings to work with.  `content` is that of the settings document. -/
def load (a : Arguments) (content : Option (List UInt8)) : Except Failure Settings :=
  match a.settings with
  | none => .ok {}
  | some name =>
    match Settings.ofFile content with
    | .error _ => .error (.settings name)
    | .ok s => .ok s

/-- The recording to work on. -/
def record (a : Arguments) (content : Option (List UInt8)) : Except Failure Wave.Recording :=
  match content.bind Wave.open? with
  | none => .error (.opening a.input)
  | some opened =>
    match opened.recording? with
    | none => .error (.samples opened.format.encoding)
    | some recording => .ok recording

/-- What the tool makes of a recording, in the arithmetic it is given. -/
def denoiseWith (numerics : Numerics) (a : Arguments) (s : Settings) (r : Wave.Recording) :
    Except Failure Wave.Recording :=
  let f := r.format
  match Offline.denoise numerics s a.held (ofCount f.rate) f.channels r.samples with
  | .error (.engine _) => .error .engine
  | .error (.tooShort demand) => .error (.tooShort demand)
  | .ok cleaned => .ok ⟨Wave.writtenFormat f.channels f.rate, cleaned.samples⟩

/-- The recording to write, from the content of the settings document and of the
input. -/
def resultWith (numerics : Numerics) (a : Arguments) (settings input : Option (List UInt8)) :
    Except Failure Wave.Recording := do
  let s ← a.load settings
  let r ← a.record input
  a.denoiseWith numerics s r

/-- What the tool makes of a recording on the machine. -/
def denoise (a : Arguments) (s : Settings) (r : Wave.Recording) : Except Failure Wave.Recording :=
  a.denoiseWith .machine s r

/-- The recording that the tool writes on the machine. -/
def result (a : Arguments) (settings input : Option (List UInt8)) :
    Except Failure Wave.Recording :=
  a.resultWith .machine settings input

end Arguments

end Denoise.CommandLine
