import Denoise.Arithmetic
import Denoise.Elementary

/-!
# The exponential integral

`E₁(x) = ∫ₓ^∞ e^-t / t dt` for `x > 0`, in double precision.  Up to one it is the
power series

  `E₁(x) = -γ - ln x - Σ (-x)^k / (k · k!)`,

and above one a continued fraction, evaluated forwards (modified Lentz).  Each
of the two stops when its last step no longer matters, and after a hundred steps
in any case.

The continued fraction is generic in the number type, so that what its
recurrences do can be said over exact arithmetic.
-/

namespace Denoise.ExponentialIntegral

/-- The most steps of either evaluation. -/
def maxSteps : Nat := 100

/-! ## The continued fraction -/

section Fraction

variable {K : Type} [OfScientific K] [Add K] [Mul K] [Div K] [Neg K]

/-- The state of the forward evaluation. -/
structure Fraction (K : Type) where
  /-- The last partial denominator. -/
  b : K
  /-- The ratio of the last two numerators. -/
  c : K
  /-- The inverse ratio of the last two denominators. -/
  d : K
  /-- The value so far. -/
  h : K
  /-- The factor that the last step put on the value. -/
  ratio : K

/-- The state before the first step.  A huge number stands in for the infinite
first ratio. -/
def Fraction.start (x : K) : Fraction K :=
  let b := x + 1.0
  let d := 1.0 / b
  { b := b, c := 1.0 / 1e-300, d := d, h := d, ratio := 1.0 }

/-- The partial numerator of step `i`. -/
def numerator (i : Nat) : K := -ofCount (i * i)

/-- Step `i` of the evaluation. -/
def Fraction.step (f : Fraction K) (i : Nat) : Fraction K :=
  let a := numerator i
  let b := f.b + 2.0
  let d := 1.0 / (a * f.d + b)
  let c := b + a / f.c
  let ratio := c * d
  { b := b, c := c, d := d, h := f.h * ratio, ratio := ratio }

/-- Steps `i`, `i + 1`, … until the factor of a step has settled, `turns` of
them at most. -/
@[specialize] def Fraction.run (settled : K → Bool) : (turns i : Nat) → Fraction K → Fraction K
  | 0, _, f => f
  | turns + 1, i, f =>
    let next := f.step i
    if settled next.ratio then next else run settled turns (i + 1) next

/-- The integral by its continued fraction. -/
@[specialize] def byFraction (exp : K → K) (settled : K → Bool) (x : K) : K :=
  (Fraction.run settled maxSteps 1 (.start x)).h * exp (-x)

end Fraction

/-! ## The power series -/

/-- Terms `k`, `k + 1`, … of the series added to a sum.  `term` is the power over
the factorial of the term before. -/
def series (x : Float) : (turns k : Nat) → (term sum : Float) → Float
  | 0, _, _, sum => sum
  | turns + 1, k, term, sum =>
    let term := term * (-x / ofCount k)
    let part := term / ofCount k
    let sum := sum + part
    if part.abs < sum.abs * 1e-12 then sum else series x turns (k + 1) term sum

/-! ## The integral -/

/-- The argument in range: the integral diverges at zero. -/
def argument (x : Float32) : Float := greater (widen x) 1e-30

/-- The exponential integral.  It is zero from 700 on, long after it has
underflowed. -/
def e1 (m : Elementary) (x : Float32) : Float32 :=
  let x := argument x
  if 700 ≤ x then 0
  else if x ≤ 1 then
    narrow (-0.5772156649015329 - m.logWide x - series x maxSteps 1 1 0)
  else narrow (byFraction m.expWide (fun ratio => (ratio - 1).abs < 1e-12) x)

end Denoise.ExponentialIntegral
