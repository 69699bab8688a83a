import Denoise.Decimal

/-!
# Events

What a noise reducer reports about itself.  Operations return the events they
cause, in order.  A reader of logs sees a `Record`: a level and a text.
-/

namespace Denoise

/-- How much a record matters. -/
inductive Level where
  /-- For whoever looks for a fault. -/
  | debug
  /-- For whoever runs the reducer. -/
  | info
  /-- Something is not as it should be. -/
  | warn
deriving DecidableEq, Repr

/-- A line of the log. -/
structure Record where
  /-- The level. -/
  level : Level
  /-- The text. -/
  text : String
deriving DecidableEq, Repr

/-- Something that happened to a noise reducer. -/
inductive Event where
  /-- An engine was built. -/
  | started (rate : Float32) (frameLen hop demand : Nat)
  /-- The active chain was trained. -/
  | trained (rate : Float32) (frameLen : Nat) (wideband : Bool)
  /-- A retrain was put off because the channel is busy. -/
  | deferred (range : Float32)
  /-- The candidate was retrained. -/
  | retrained (range : Float32)
  /-- The candidate was promoted, with a profile of this generation. -/
  | swapped (generation : Nat)
  /-- The sample rate was changed. -/
  | rateChanged (rate : Float32) (wideband : Bool)
  /-- Refinement was frozen or set free. -/
  | holdChanged (held : Bool)
  /-- Processing was bypassed or taken up again. -/
  | bypassChanged (bypassed : Bool)
  /-- The input of a worker ended. -/
  | inputDetached (published : Nat)
  /-- The consumer of a worker went away. -/
  | outputClosed (published : Nat)
  /-- A noise floor of smaller spread was adopted. -/
  | tighterFloor (low high : Float32)
  /-- No bin could be trusted. -/
  | noTrustedBins
  /-- Entries did not fit into the log ring. -/
  | entriesDropped (count : Nat)
deriving DecidableEq

namespace Event

/-- The level an event is reported at. -/
def level : Event → Level
  | .deferred _ => .debug
  | .tighterFloor _ _ => .debug
  | .noTrustedBins => .warn
  | .entriesDropped _ => .warn
  | _ => .info

/-- The name of a kind of input. -/
def inputKind (wideband : Bool) : String := if wideband then "wideband" else "audio rate"

/-- The name of a position of a switch. -/
def onOff (on : Bool) : String := if on then "on" else "off"

/-- A single as messages show it. -/
def plain (x : Float32) : String := String.ofList (Decimal.inMessages.single x)

/-- A dynamic range as messages show it. -/
def range (x : Float32) : String := String.ofList (Decimal.fixed 1 x.toModel.unpack)

/-- A power as messages show it. -/
def power (x : Float32) : String := String.ofList (Decimal.scientific 3 x.toModel.unpack)

/-- The text of an event. -/
def text : Event → String
  | .started rate frameLen hop demand =>
    "noise reduction engine: " ++ plain rate ++ " Hz, Slen " ++ toString frameLen ++ ", hop "
      ++ toString hop ++ ", training demand " ++ toString demand
  | .trained rate frameLen wideband =>
    "noise reduction trained: " ++ plain rate ++ " Hz, frame " ++ toString frameLen ++ " samples, "
      ++ inputKind wideband
  | .deferred r => "noise reduction: channel busy (" ++ range r ++ " dB range), retrain deferred"
  | .retrained r => "noise reduction: candidate profile retrained (" ++ range r ++ " dB range)"
  | .swapped generation =>
    "noise reduction: swapped to retrained profile (generation " ++ toString generation ++ ")"
  | .rateChanged rate wideband =>
    "noise reduction engine: sample rate now " ++ plain rate ++ " Hz (" ++ inputKind wideband ++ ")"
  | .holdChanged held => "noise reduction: profile hold " ++ onOff held
  | .bypassChanged bypassed => "noise reduction: bypass " ++ onOff bypassed
  | .inputDetached n => "noise reduction: input detached after " ++ toString n ++ " samples"
  | .outputClosed n => "noise reduction: output closed after " ++ toString n ++ " samples"
  | .tighterFloor low high =>
    "noise profile: tighter floor adopted (" ++ power low ++ ".." ++ power high ++ ")"
  | .noTrustedBins => "noise profile: no trusted bins, holding previous estimate"
  | .entriesDropped n => "processing log ring overflowed, " ++ toString n ++ " entries dropped"

/-- The log line of an event. -/
def record (e : Event) : Record := ⟨e.level, e.text⟩

end Event

end Denoise
