import Denoise.Fourier.Plane

/-!
# Transforms of any number of points

A transform that is written out takes as many steps for a bin as there are points.
A size with large prime factors is transformed in another way.  Since

  `2jk = j² + k² - (k - j)²`,

the sum of `x j * w ^ (jk)` over `j` is a convolution, once `x` and the result are
multiplied by a wave of quadratic phase, a *chirp*.  A convolution is a product of
transforms, and those may have any size that is large enough: here a power of two.
-/

namespace Denoise.Fourier

/-- The least number of binary digits of a power of two that is no less than `n`. -/
def bitsFor (n : Nat) : Nat := Nat.log2 (n - 1) + 1

/-- The size of the convolution for `n` points. -/
def spanFor (n : Nat) : Nat := 1 <<< bitsFor (2 * n)

example : spanFor 13 = 32 ∧ spanFor 16 = 32 ∧ spanFor 17 = 64 := by decide

/-- The index in a chirp of a place in the convolution.  The chirp is the same
forwards and backwards, and lies around the end. -/
def placeAround (n span i : Nat) : Option Nat :=
  if i < n then some i else if span - i < n then some (span - i) else none

/-- A chirp around the end of the convolution. -/
def around (n span : Nat) (xs : FloatArray) : FloatArray :=
  tabulate span fun i =>
    match placeAround n span i with
    | some j => xs.get! j
    | none => 0

/-- Blocks of `n` rows, filled up with zeros to `span` rows. -/
def padded (outer n span inner : Nat) (xs : FloatArray) : FloatArray :=
  sweep outer span inner fun b k s => if k < n then xs.get! ((b * n + k) * inner + s) else 0

/-- Transforms of `n` points, given transforms of `spanFor n` points.  They work in double
precision. -/
def chirp (n : Nat) (inside : Along) : Along := fun m outer inner y =>
  let span := spanFor n
  let phase (j : Nat) : Float :=
    let a := angle (j * j % (2 * n)) (2 * n)
    if m.inverse then -a else a
  let wave : Plane := ⟨tabulate n fun j => (phase j).cos, tabulate n fun j => (phase j).sin⟩
  let opposite := tabulate n fun j => -wave.im.get! j
  let kernel := inside .there 1 1 ⟨around n span wave.re, around n span opposite⟩
  let points := y.weighted outer n inner 1 wave
  let bins := inside .there outer inner
    ⟨padded outer n span inner points.re, padded outer n span inner points.im⟩
  let convolution := inside .back outer inner (bins.weighted outer span inner 1 kernel)
  let result := (convolution.rearrange outer span n inner id).weighted outer n inner
    (1 / span.toUInt64.toFloat) wave
  ⟨tabulate (outer * n * inner) fun i => m.round (result.re.get! i),
    tabulate (outer * n * inner) fun i => m.round (result.im.get! i)⟩

end Denoise.Fourier
