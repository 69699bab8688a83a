import Denoise.Phasor

/-!
# Discrete Fourier transforms

The signal path is a function of a pair of transforms.  All it needs of them in
general is that a transform has as many bins as samples.  Neither direction is
normalised: forward and then inverse multiplies by the number of points, where
the arithmetic is exact.
-/

namespace Denoise

/-- A pair of transforms over a number type. -/
structure Transform (K : Type) where
  /-- From samples to bins. -/
  forward : List (Phasor K) → List (Phasor K)
  /-- From bins to samples, not normalised. -/
  inverse : List (Phasor K) → List (Phasor K)
  /-- There are as many bins as samples. -/
  length_forward : ∀ xs, (forward xs).length = xs.length
  /-- There are as many samples as bins. -/
  length_inverse : ∀ xs, (inverse xs).length = xs.length

end Denoise
