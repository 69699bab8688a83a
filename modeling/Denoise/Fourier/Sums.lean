import Denoise.Fourier.Plane

/-!
# Transforms of a few points

A transform of a prime number of points is written out.  Two points have a sum and
a difference.  Otherwise the points but the first come in pairs `j` and `p - j`, and
the roots that a pair is multiplied by are conjugate.  So each part of a bin is the
sum of two: one is even in the number of the bin, of cosines and the sums of the
pairs, the other one is odd, of sines and the differences.  The odd one comes from
the other part of the points.
-/

namespace Denoise.Fourier

/-- One part of transforms of two points. -/
def halves (m : Manner) (outer inner : Nat) (xs : FloatArray) : FloatArray :=
  sweep outer 2 inner fun b k s =>
    let i := b * 2 * inner + s
    m.round (if k = 0 then xs.get! i + xs.get! (i + inner) else xs.get! i - xs.get! (i + inner))

/-- A sum, and the sums of the pairs from `j` on, each times a weight.  The points lie
`gap` apart from `i` on. -/
def evenSum (m : Manner) (weights xs : FloatArray) (p k gap i : Nat) :
    (turns j : Nat) → (sum : Float) → Float
  | 0, _, sum => sum
  | turns + 1, j, sum =>
    let pair := m.round (xs.get! (i + j * gap) + xs.get! (i + (p - j) * gap))
    evenSum m weights xs p k gap i turns (j + 1) (m.round (weights.get! (j * k % p) * pair + sum))

/-- A sum, and the differences of the pairs from `j` on, each times a weight. -/
def oddSum (m : Manner) (weights xs : FloatArray) (p k gap i : Nat) :
    (turns j : Nat) → (sum : Float) → Float
  | 0, _, sum => sum
  | turns + 1, j, sum =>
    let pair := m.round (xs.get! (i + j * gap) - xs.get! (i + (p - j) * gap))
    oddSum m weights xs p k gap i turns (j + 1) (m.round (weights.get! (j * k % p) * pair + sum))

/-- One part of bin `k`, from the same part `xs` and the other part `zs` of the points.
The odd sum for three points is one product, which is fused. -/
def bin (m : Manner) (cosines sines xs zs : FloatArray) (p gap k i : Nat) : Float :=
  let x := xs.get! i
  if k = 0 then m.round (x + evenSum m cosines xs p 0 gap i (p / 2) 1 0)
  else
    let even := evenSum m cosines xs p k gap i (p / 2) 1 x
    if p = 3 then oddSum m sines zs p k gap i 1 1 even
    else m.round (even + oddSum m sines zs p k gap i (p / 2) 1 0)

/-- Transforms of `p` points, which is a prime number or one. -/
def sums (p : Nat) : Along := fun m outer inner y =>
  if p ≤ 1 then y
  else if p = 2 then ⟨halves m outer inner y.re, halves m outer inner y.im⟩
  else
    let table := roots m p
    let cosines := tabulate p fun j => table.re.get! (min j (p - j))
    let sines := tabulate p fun j =>
      if 2 * j < p then table.im.get! j else -table.im.get! (p - j)
    let opposite := tabulate p fun j => -sines.get! j
    ⟨sweep outer p inner fun b k s =>
        bin m cosines opposite y.re y.im p inner k (b * p * inner + s),
      sweep outer p inner fun b k s =>
        bin m cosines sines y.im y.re p inner k (b * p * inner + s)⟩

end Denoise.Fourier
