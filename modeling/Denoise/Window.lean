import Denoise.Elementary
import Denoise.Fourier
import Denoise.Geometry

/-!
# Analysis and synthesis of frames

A frame is weighted by a window, padded with zeros to the size of the transform
and transformed.  The way back is the inverse transform, divided by its size,
and overlap-add: the front half of a frame is added to the half kept from the
frame before, and its back half is kept for the next.

At audio rate the window is a Hann window, scaled so that its weights add up to
the hop.  Wideband input has equal weights.  The overlap gain that is left,
the hop over the sum of the weights, is made up for in synthesis.

Analysis, inversion and overlap-add are generic in the number type.
-/

namespace Denoise

/-! ## Windows -/

/-- The symmetric Hann window, `½ - ½ cos (2πi / (n - 1))`. -/
def hann (m : Elementary) (n : Nat) : List Float32 :=
  if n < 2 then List.replicate n 1
  else (List.range n).map fun i =>
    narrow (0.5 - 0.5 * m.cosWide (2 * 3.141592653589793 * ofCount i / ofCount (n - 1)))

/-- The weights of a frame, and what makes up for their overlap gain. -/
structure Window (K : Type) where
  /-- One weight for each sample of a frame. -/
  weights : List K
  /-- The gain of the synthesis that undoes the overlap gain. -/
  compensation : K

section Generic

variable {K : Type}

/-- The hop over the sum of some weights. -/
def hopGain [Zero K] [Add K] [Div K] [OfScientific K] [LT K] [DecidableLT K] [BEq K]
    (hop : Nat) (weights : List K) : K :=
  ofCount hop / greater (total weights) 1.1920929e-7

/-- The window of some weights. -/
def Window.ofWeights [Zero K] [Add K] [Div K] [OfScientific K] [LT K] [DecidableLT K] [BEq K]
    (hop : Nat) (weights : List K) : Window K :=
  ⟨weights, hopGain hop weights⟩

/-- A frame weighted and padded with zeros. -/
def Window.padded [Zero K] [Mul K] (w : Window K) (fftSize : Nat) (frame : List (Phasor K)) :
    List (Phasor K) :=
  List.zipWith Phasor.scale frame w.weights
    ++ List.replicate (fftSize - w.weights.length) 0

/-- The spectrum of a frame. -/
def Window.analyze [Zero K] [Mul K] (w : Window K) (t : Transform K) (fftSize : Nat)
    (frame : List (Phasor K)) : List (Phasor K) :=
  t.forward (w.padded fftSize frame)

/-- The frame of a spectrum. -/
def invert [Mul K] [Div K] [OfScientific K] (t : Transform K) (spectrum : List (Phasor K)) :
    List (Phasor K) :=
  let share := 1.0 / ofCount spectrum.length
  (t.inverse spectrum).map fun z => z.scale share

/-- A spectrum with a gain on each bin. -/
def applyGains [Mul K] (spectrum : List (Phasor K)) (gains : List K) : List (Phasor K) :=
  List.zipWith Phasor.scale spectrum gains

/-! ## Overlap-add -/

/-- One hop of output, and the tail for the next. -/
structure Overlapped (K : Type) where
  /-- The samples of the hop. -/
  out : List (Phasor K)
  /-- The back half of the frame. -/
  tail : List (Phasor K)

/-- Adds a frame to the tail of the frame before. -/
def overlapAdd [Zero K] [Add K] [Mul K] (hop : Nat) (scale : K)
    (tail frame : List (Phasor K)) : Overlapped K where
  out := List.zipWith (fun t z => (t + z).scale scale)
    (tail ++ List.replicate (hop - tail.length) 0) (frame.take hop)
  tail := (frame.drop hop).take hop

end Generic

/-- The window for a geometry. -/
def Window.forGeometry (m : Elementary) (g : Geometry) : Window Float32 :=
  if g.wideband then .ofWeights g.hop (List.replicate g.frameLen 1)
  else
    let shape := hann m g.frameLen
    let gain := hopGain g.hop shape
    .ofWeights g.hop (shape.map (· * gain))

example : (overlapAdd 2 (0.5 : Float32) [⟨1, 0⟩, ⟨2, 0⟩]
      [⟨3, 0⟩, ⟨4, 2⟩, ⟨5, 0⟩, ⟨6, 0⟩, ⟨7, 0⟩]).out
    = [⟨2, 0⟩, ⟨3, 1⟩] := by decide +kernel

end Denoise
