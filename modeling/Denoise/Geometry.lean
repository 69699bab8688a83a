import Denoise.Arithmetic
import Denoise.Settings

/-!
# Frame geometry

The sizes that a sample rate fixes.  An analysis frame lasts 20 milliseconds,
rounded up to an even number of samples, and has to hold at least four.  Frames
overlap by one half, so everything is a multiple of the half frame: the hop and
the overlap tail are one half frame, a frame is two and a transform four.

Sizes are natural numbers here, and there is no largest one.  A machine with words of
64 bits has the same sizes as long as its words hold them, which is what
`Geometry.Fits` says: the input buffer is the largest size, and the threshold of
refinement is the one that comes from the settings alone.  No product and no sum
overflows then (`Geometry.Fits.words`).  For a demand of 2 ^ 64 samples, or a
`historyMinFrames` of 2 ^ 64 - 1, the sizes of such a machine overflow.  What is proved
of sizes is not about it there.
-/

namespace Denoise

/-- The sizes for one sample rate. -/
structure Geometry where
  /-- The sample rate (Hz). -/
  sampleRate : Float32
  /-- Whether the rate is above the wideband threshold. -/
  wideband : Bool
  /-- Samples between the starts of two frames: half a frame. -/
  hop : Nat
  /-- Frames averaged when a noise profile is sampled. -/
  noiseFrames : Nat
  /-- A frame holds at least four samples. -/
  two_le_hop : 2 ≤ hop
  /-- A profile is sampled from at least one frame. -/
  noiseFrames_pos : 0 < noiseFrames
deriving DecidableEq

namespace Geometry

/-- Samples of an analysis frame. -/
def frameLen (g : Geometry) : Nat := 2 * g.hop

/-- Samples of the overlap tail. -/
def tailLen (g : Geometry) : Nat := g.hop

/-- Points of the transform. -/
def fftSize (g : Geometry) : Nat := 2 * g.frameLen

/-- Samples needed before the first noise profile can be sampled. -/
def demand (g : Geometry) : Nat := g.noiseFrames * g.frameLen * 2

/-- Samples the input buffer holds: the demand and four frames. -/
def bufferSize (g : Geometry) : Nat := g.demand + 4 * g.frameLen

/-- Samples of a frame at a rate, before it is made even.  If a word does not hold them,
it is the greatest word. -/
def frameSamples (rate : Float32) : Nat := (0.02 * widen rate).toUInt64.toNat

/-- The sizes at a sample rate, unless the rate is too low for a frame. -/
def ofRate? (rate : Float32) (s : Settings) : Option Geometry :=
  if !rate.isFinite || rate ≤ 0 then none
  else
    let half := (frameSamples rate + 1) / 2
    if h : 2 ≤ half then
      some {
        sampleRate := rate
        wideband := s.widebandThresholdHz < rate
        hop := half
        noiseFrames := max s.noiseFrames 1
        two_le_hop := h
        noiseFrames_pos := by omega }
    else none

/-- Frames of noise history kept at this rate. -/
def historyCapacity (g : Geometry) (s : Settings) : Nat :=
  if g.wideband then s.widebandHistoryFrames else s.audioHistoryFrames

/-- Frames of history that refinement waits for.  A wideband history is short,
so there it waits until the history is full. -/
def refineThreshold (g : Geometry) (s : Settings) : Nat :=
  if g.wideband then s.widebandHistoryFrames else s.historyMinFrames + 1

/-- Whether words of 64 bits hold every size.  None of the others is above the input
buffer, and the threshold of refinement does not come from the rate. -/
def Fits (g : Geometry) (s : Settings) : Prop :=
  g.bufferSize < UInt64.size ∧ g.refineThreshold s < UInt64.size

instance (g : Geometry) (s : Settings) : Decidable (g.Fits s) :=
  inferInstanceAs (Decidable (_ ∧ _))

end Geometry

example : (Geometry.ofRate? 22050 {}).map (·.frameLen) = some 442 := by decide +kernel
example : (Geometry.ofRate? 48000 {}).map (fun g => (g.wideband, g.fftSize, g.demand))
    = some (true, 1920, 23040) := by decide +kernel
example : (Geometry.ofRate? 48000 {}).all (·.Fits {}) := by decide +kernel
example : Geometry.ofRate? 149 {} = none ∧ Geometry.ofRate? (0.0 / 0.0) {} = none := by
  decide +kernel

end Denoise
