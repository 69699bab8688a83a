/-!
# Two precisions

Samples, magnitudes and noise powers are single-precision numbers.  Long sums
and the special functions are carried in double precision.  This module has the
two passages between them and the few scalar operations the rest is built from.

`widen` is exact.  `narrow` rounds to the nearest single, halves to the even
neighbour.  Both are written with operations that compute in the logic: an
integer significand, converted, times a power of two.  The product is exact in
both directions, so the only rounding is the integer one inside `narrow`.

`lesser` and `greater` pass over an undefined operand: a NaN gives way to the
other number.  `clamp` keeps a NaN.  Passes with a law over exact arithmetic are
generic in the number type, and a count enters them through `ofCount`.
-/

namespace Denoise

/-! ## Passages between the precisions -/

/-- The double with the same value.  The significand of a single is an integer
below `2^24`, which a double holds exactly, and so is its product with the power
of two that the exponent names. -/
def widen (x : Float32) : Float :=
  let bits := x.toBits
  let exponent := bits >>> 23 &&& 0xff
  let fraction := bits &&& 0x7fffff
  let magnitude : Float :=
    if exponent = 0xff then
      .ofBits (if fraction = 0 then 0x7ff0000000000000 else 0x7ff8000000000000)
    else if exponent = 0 then
      fraction.toUInt64.toFloat * .ofBits 0x36a0000000000000
    else
      (fraction ||| 0x800000).toUInt64.toFloat * .ofBits ((exponent.toUInt64 + 873) <<< 52)
  if bits >>> 31 = 0 then magnitude else -magnitude

/-- The significand without its last `dropped` binary digits, rounded to the
nearest integer, a half to the even one. -/
def roundedShift (significand dropped : UInt64) : UInt64 :=
  let kept := significand >>> dropped
  let rest := significand - kept <<< dropped
  let half := 1 <<< (dropped - 1)
  if half < rest ∨ (rest = half ∧ kept % 2 = 1) then kept + 1 else kept

/-- The single `2^(place - 149)`, for a place below 254.  The places below 23
are powers that only a subnormal number holds. -/
def powerAt (place : UInt64) : Float32 :=
  .ofBits (if place < 23 then 1 <<< place.toUInt32 else (place.toUInt32 - 22) <<< 23)

/-- The nearest single, a half to the even neighbour.  The significand keeps 24
binary digits, fewer where the result is subnormal, and overflow gives an
infinity. -/
def narrow (x : Float) : Float32 :=
  let bits := x.toBits
  let exponent := bits >>> 52 &&& 0x7ff
  let fraction := bits &&& 0xfffffffffffff
  let magnitude : Float32 :=
    if exponent = 0x7ff then
      .ofBits (if fraction = 0 then 0x7f800000 else 0x7fc00000)
    else if 1150 < exponent then .ofBits 0x7f800000
    else if exponent < 873 then .ofBits 0
    else
      let dropped := if exponent < 897 then 926 - exponent else 29
      (roundedShift (fraction ||| 0x10000000000000) dropped).toFloat32
        * powerAt (exponent + dropped - 926)
  if bits >>> 63 = 0 then magnitude else -magnitude

example : widen 0.5 = 0.5 ∧ widen (-3) = -3 ∧ narrow 0.5 = 0.5 := by decide +kernel
/-- A tenth is not the same number in the two precisions. -/
example : widen 0.1 ≠ 0.1 ∧ narrow 0.1 = 0.1 ∧ narrow (widen 0.1) = 0.1 := by decide +kernel
/-- The largest single and the first double that overflows. -/
example : narrow (.ofBits 0x47efffffe0000000) = .ofBits 0x7f7fffff
    ∧ narrow (.ofBits 0x47effffff0000000) = .ofBits 0x7f800000 := by decide +kernel
/-- The smallest subnormal, and half of it, which goes to the even zero. -/
example : widen (.ofBits 1) = .ofBits 0x36a0000000000000
    ∧ narrow (.ofBits 0x36a0000000000000) = .ofBits 1
    ∧ narrow (.ofBits 0x3690000000000000) = 0
    ∧ narrow (.ofBits 0x3690000000000001) = .ofBits 1 := by decide +kernel

/-! ## Scalars of either precision -/

section Scalar

variable {K : Type}

/-- A count as a number. -/
def ofCount [OfScientific K] (n : Nat) : K := OfScientific.ofScientific n false 0

/-- The smaller of two numbers.  An undefined first operand gives way, an
undefined second one is never smaller, and of two equal ones the first stays. -/
def lesser [LT K] [DecidableLT K] [BEq K] (a b : K) : K :=
  if b < a ∨ (a == a) = false then b else a

/-- The greater of two numbers, with undefined operands as in `lesser`. -/
def greater [LT K] [DecidableLT K] [BEq K] (a b : K) : K :=
  if a < b ∨ (a == a) = false then b else a

/-- The number held between two bounds.  An undefined number stays undefined. -/
def clamp [LT K] [DecidableLT K] (low high x : K) : K :=
  if x < low then low else if high < x then high else x

/-- The sum of a list, first to last. -/
def total [Zero K] [Add K] (xs : List K) : K := xs.foldl (· + ·) 0

end Scalar

example : lesser (0.0 / 0.0 : Float32) 2 = 2 ∧ lesser (2 : Float32) (0.0 / 0.0) = 2
    ∧ greater (-1 : Float32) 2 = 2 := by decide +kernel

/-- The nearest whole number of a number that is not negative, a half upward.
An undefined or negative number gives zero. -/
def nearestWhole (x : Float32) : Nat :=
  let whole := x.toUInt64
  if 0.5 ≤ x - whole.toFloat32 then whole.toNat + 1 else whole.toNat

example : nearestWhole 2.5 = 3 ∧ nearestWhole 2.25 = 2 ∧ nearestWhole (.ofBits 0x3effffff) = 0
    ∧ nearestWhole (0.0 / 0.0) = 0 ∧ nearestWhole (-3) = 0 := by decide +kernel

/-- The greatest single. -/
def greatestSingle : Float32 := .ofBits 0x7f7fffff

/-- The least single. -/
def leastSingle : Float32 := .ofBits 0xff7fffff

/-- The largest value a sample counter holds.  Counters stop there. -/
def maxCount : Nat := 0xffffffffffffffff

end Denoise
