import Denoise.Fourier.Chirp
import Denoise.Fourier.Cyclic
import Denoise.Fourier.Sums
import Denoise.Fourier.Turning

/-!
# Schemes

A scheme says how a transform of some size is built up from smaller ones.

A *mixed* scheme splits the number of a point as `c + q * j`, and the number of a bin as
`i + r * k`.  It makes transforms of `r` points over `j`, turns, and makes transforms of
`q` points over `c`.  Where `r` and `q` have no common factor, numbers can be split such
that no turns are left: point `q * j + r * c`, and the bin that is `i` modulo `r` and `k`
modulo `q`.

Each of the two takes the rows of a block as `r` groups of `q` rows.  For the first
scheme a group is one long row, and for the second scheme it is a block.
-/

namespace Denoise.Fourier

/-- How a transform is built up. -/
inductive Scheme where
  /-- A prime number of points, or one, written out. -/
  | sums (p : Nat)
  /-- The first scheme on points that lie apart, turns, and the second scheme. -/
  | mixed (t : Turning) (first second : Scheme)
  /-- Two schemes of coprime sizes. -/
  | coprime (first second : Scheme)
  /-- A prime number of points with a generator, and a scheme of one point less. -/
  | cyclic (p g : Nat) (inside : Scheme)
  /-- Any number of points, and a scheme for the convolution. -/
  | chirp (n : Nat) (inside : Scheme)

namespace Scheme

/-- The number of points. -/
def size : Scheme → Nat
  | .sums p => p
  | .mixed _ first second => first.size * second.size
  | .coprime first second => first.size * second.size
  | .cyclic p _ _ => p
  | .chirp n _ => n

/-- The transforms of a scheme. -/
def along : Scheme → Along
  | .sums p => Fourier.sums p
  | .mixed t first second => fun m outer inner y =>
    let r := first.size
    let q := second.size
    let bins := turn m t r q outer inner (first.along m outer (q * inner) y)
    (second.along m (outer * r) inner bins).rearrange outer (r * q) (r * q) inner fun k =>
      k % r * q + k / r
  | .coprime first second => fun m outer inner y =>
    let r := first.size
    let q := second.size
    let points := y.rearrange outer (r * q) (r * q) inner fun k =>
      (k / q * q + k % q * r) % (r * q)
    let bins := first.along m outer (q * inner) points
    (second.along m (outer * r) inner bins).rearrange outer (r * q) (r * q) inner fun k =>
      k % r * q + k % q
  | .cyclic p g inside => Fourier.cyclic p g inside.along
  | .chirp n inside => Fourier.chirp n inside.along

end Scheme

end Denoise.Fourier
