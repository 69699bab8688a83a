import Denoise.Chain

/-!
# Snapshots

A point-in-time view of a noise reducer, and its document: a JSON object on one
line, with the fields in their order of declaration.
-/

namespace Denoise

/-- A point-in-time view of an engine. -/
structure Snapshot where
  /-- The sample rate (Hz). -/
  sampleRate : Float32
  /-- Whether the rate is wideband. -/
  wideband : Bool
  /-- The frequency of the carrier (Hz). -/
  carrier : Float
  /-- The phase of the protocol. -/
  phase : Phase
  /-- Whether refinement is frozen. -/
  held : Bool
  /-- Samples in the input buffer. -/
  buffered : Nat
  /-- Samples in the trailing buffer. -/
  trailing : Nat
  /-- Samples since training, the last retrain or the last swap. -/
  sinceTrigger : Nat
  /-- Samples since the last retrain, while a swap is pending. -/
  sinceRetrain : Nat
  /-- The number of retrains. -/
  retrains : Nat
  /-- The number of swaps. -/
  swaps : Nat
  /-- The generation of the active profile. -/
  activeGeneration : Nat
  /-- The generation of the candidate's profile. -/
  candidateGeneration : Nat
deriving DecidableEq

/-- The name of a phase. -/
def Phase.name : Phase → String
  | .uninitialized => "Uninitialized"
  | .training => "TrainingActive"
  | .steady => "Steady"
  | .retraining => "RetrainingCandidate"
  | .swapPending => "SwapPending"

namespace Snapshot

/-- A switch in a document. -/
def switchText (on : Bool) : List Char := (if on then "true" else "false").toList

/-- The names of the fields, each with its value as a document shows it. -/
def members (s : Snapshot) : List (String × List Char) := [
  ("sample_rate", Decimal.inDocuments.single s.sampleRate),
  ("is_wideband", switchText s.wideband),
  ("if_hz", Decimal.wideInDocuments.double s.carrier),
  ("phase", "\"".toList ++ s.phase.name.toList ++ "\"".toList),
  ("held", switchText s.held),
  ("buffered", Decimal.digits s.buffered),
  ("trailing", Decimal.digits s.trailing),
  ("samples_since_retrain_trigger", Decimal.digits s.sinceTrigger),
  ("samples_since_retrain_completed", Decimal.digits s.sinceRetrain),
  ("retrain_count", Decimal.digits s.retrains),
  ("swap_count", Decimal.digits s.swaps),
  ("active_generation", Decimal.digits s.activeGeneration),
  ("candidate_generation", Decimal.digits s.candidateGeneration)]

/-- The document of a snapshot. -/
def document (s : Snapshot) : List Char :=
  "\x7b".toList
    ++ ",".toList.intercalate (s.members.map fun (name, value) =>
      "\"".toList ++ name.toList ++ "\":".toList ++ value)
    ++ "\x7d".toList

end Snapshot

end Denoise
