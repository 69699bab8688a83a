import Denoise.Decimal

/-!
# Settings

The tunables of a noise reducer and of its retrain and swap protocol.  They
survive a change of the sample rate.  Every field has a default.

`Settings.violation?` names the first rule that a value breaks.  An engine is
only built from settings that break none.

`fields` lists the fields in their order of declaration, each with its name in
a settings document and the way to read and to replace it.  The reader and the
writer of documents are both driven by it.
-/

namespace Denoise

/-- The tunables. -/
structure Settings where
  /-- Analysis frames averaged when a noise profile is sampled. -/
  noiseFrames : Nat := 12
  /-- Samples between attempts to retrain the candidate. -/
  switchInterval : Nat := 1000000
  /-- Samples between a retrain of the candidate and its promotion. -/
  overlapInterval : Nat := 40000
  /-- A retrain only starts while the recent dynamic range is below this (dB). -/
  silenceThresholdDb : Float32 := 18
  /-- Activity readings inspected per attempt. -/
  activityWindow : Nat := 50
  /-- Whether the candidate is retrained and swapped at all. -/
  autoRetrain : Bool := true
  /-- Sample rates above this are wideband (Hz). -/
  widebandThresholdHz : Float32 := 24000
  /-- Frames of noise history kept at audio rate. -/
  audioHistoryFrames : Nat := 2000
  /-- Frames of noise history kept for wideband input. -/
  widebandHistoryFrames : Nat := 50
  /-- At audio rate, refinement waits for more history frames than this. -/
  historyMinFrames : Nat := 100
  /-- Linear gain of the output. -/
  outputGain : Float32 := 1
  /-- Whether frames that the likelihood detector calls noise are blended into
  the noise power. -/
  vadNoiseTracking : Bool := false
  /-- Threshold of the detector (mean log-likelihood ratio per sample). -/
  vadThreshold : Float32 := 0.15
  /-- Smoothing factor of the blend. -/
  vadSmoothing : Float32 := 0.98
deriving BEq, DecidableEq

/-! ## Validity -/

/-- A rule that settings can break. -/
inductive Violation where
  /-- No analysis frame to sample a profile from. -/
  | noiseFrames
  /-- No activity reading to judge by. -/
  | activityWindow
  /-- A history without room for a frame. -/
  | historyFrames
  /-- A wideband threshold that is no positive number. -/
  | widebandThreshold
  /-- A gain that is negative or not finite. -/
  | outputGain
  /-- A silence threshold that is not finite. -/
  | silenceThreshold
  /-- A smoothing factor outside the half-open unit interval. -/
  | vadSmoothing
deriving DecidableEq, Repr

/-- The setting that a rule is about. -/
def Violation.setting : Violation → String
  | .noiseFrames => "noise_frames"
  | .activityWindow => "activity_window"
  | .historyFrames => "history_frames"
  | .widebandThreshold => "wideband_threshold_hz"
  | .outputGain => "output_gain"
  | .silenceThreshold => "silence_threshold_db"
  | .vadSmoothing => "vad_smoothing"

/-- What a rule asks for. -/
def Violation.reason : Violation → String
  | .noiseFrames => "must be at least 1"
  | .activityWindow => "must be at least 1"
  | .historyFrames => "history must hold at least one frame"
  | .widebandThreshold => "must be positive"
  | .outputGain => "must be finite and non-negative"
  | .silenceThreshold => "must be finite"
  | .vadSmoothing => "must be in [0, 1)"

namespace Settings

/-- The first rule that the settings break. -/
def violation? (s : Settings) : Option Violation :=
  if s.noiseFrames = 0 then some .noiseFrames
  else if s.activityWindow = 0 then some .activityWindow
  else if s.audioHistoryFrames = 0 ∨ s.widebandHistoryFrames = 0 then some .historyFrames
  else if !s.widebandThresholdHz.isFinite || s.widebandThresholdHz ≤ 0 then
    some .widebandThreshold
  else if !s.outputGain.isFinite || s.outputGain < 0 then some .outputGain
  else if !s.silenceThresholdDb.isFinite then some .silenceThreshold
  else if 0 ≤ s.vadSmoothing ∧ s.vadSmoothing < 1 then none
  else some .vadSmoothing

/-- Settings that break no rule. -/
def Valid (s : Settings) : Prop := s.violation? = none

instance (s : Settings) : Decidable s.Valid := inferInstanceAs (Decidable (_ = none))

example : ({} : Settings).Valid := by decide +kernel
example : ({ vadSmoothing := 1 } : Settings).violation? = some .vadSmoothing := by decide +kernel
/-- The rules are tried in a fixed order. -/
example : ({ noiseFrames := 0, outputGain := -1 } : Settings).violation? = some .noiseFrames := by
  decide +kernel

/-! ## Fields by name -/

/-- How a field is read and replaced, by the kind of value it holds. -/
inductive Slot where
  /-- A count. -/
  | count (get : Settings → Nat) (set : Nat → Settings → Settings)
  /-- A single-precision number. -/
  | number (get : Settings → Float32) (set : Float32 → Settings → Settings)
  /-- A switch. -/
  | switch (get : Settings → Bool) (set : Bool → Settings → Settings)

/-- A field of a settings document. -/
structure Field where
  /-- The name in the document. -/
  name : List Char
  /-- The place in the settings. -/
  slot : Slot

/-- The fields in their order of declaration. -/
def fields : List Field := [
  ⟨"noise_frames".toList, .count noiseFrames fun v s => { s with noiseFrames := v }⟩,
  ⟨"switch_interval".toList, .count switchInterval fun v s => { s with switchInterval := v }⟩,
  ⟨"overlap_interval".toList, .count overlapInterval fun v s => { s with overlapInterval := v }⟩,
  ⟨"silence_threshold_db".toList,
    .number silenceThresholdDb fun v s => { s with silenceThresholdDb := v }⟩,
  ⟨"activity_window".toList, .count activityWindow fun v s => { s with activityWindow := v }⟩,
  ⟨"auto_retrain".toList, .switch autoRetrain fun v s => { s with autoRetrain := v }⟩,
  ⟨"wideband_threshold_hz".toList,
    .number widebandThresholdHz fun v s => { s with widebandThresholdHz := v }⟩,
  ⟨"audio_history_frames".toList,
    .count audioHistoryFrames fun v s => { s with audioHistoryFrames := v }⟩,
  ⟨"wideband_history_frames".toList,
    .count widebandHistoryFrames fun v s => { s with widebandHistoryFrames := v }⟩,
  ⟨"history_min_frames".toList,
    .count historyMinFrames fun v s => { s with historyMinFrames := v }⟩,
  ⟨"output_gain".toList, .number outputGain fun v s => { s with outputGain := v }⟩,
  ⟨"vad_noise_tracking".toList,
    .switch vadNoiseTracking fun v s => { s with vadNoiseTracking := v }⟩,
  ⟨"vad_threshold".toList, .number vadThreshold fun v s => { s with vadThreshold := v }⟩,
  ⟨"vad_smoothing".toList, .number vadSmoothing fun v s => { s with vadSmoothing := v }⟩]

/-- The field of a name. -/
def field? (name : List Char) : Option Field := fields.find? (·.name == name)

/-! ## Writing a document -/

/-- The text of a field's value. -/
def Slot.text (s : Settings) : Slot → List Char
  | .count get _ => Decimal.digits (get s)
  | .number get _ => Decimal.inDocuments.single (get s)
  | .switch get _ => (if get s then "true" else "false").toList

/-- One line of a document, without its end. -/
def Field.line (s : Settings) (f : Field) : List Char :=
  "  \"".toList ++ f.name ++ "\": ".toList ++ f.slot.text s

/-- The document of the settings: one field a line, in order of declaration,
indented by two blanks. -/
def document (s : Settings) : List Char :=
  "\x7b\n".toList ++ ",\n".toList.intercalate (fields.map (Field.line s)) ++ "\n\x7d".toList

end Settings

end Denoise
