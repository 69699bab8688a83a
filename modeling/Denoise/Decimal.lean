/-!
# Decimal text of binary numbers

A finite binary number is `m · 2^e` and has an exact decimal expansion.  Three
texts are made of it, for either precision.

* *Fixed*: a given number of places after the point.
* *Scientific*: one digit before the point and a given number after it.
* *Shortest*: the fewest digits that read back as the same number, and of those
  the decimal nearest to it.

All three are computed in `Nat`.  The first two are one rounded quotient,
`roundDiv`.  The third scans the decimal grids from coarse to fine.  On each
grid only the two neighbours of the number can be nearest, and the first grid
with a neighbour inside the rounding interval is the answer.  The interval has
its ends in it when the significand is even.

What differs between the users of a text (where positional notation ends, how a
zero or an infinity is spelt, which way a tie goes) is a `Style`.
-/

namespace Denoise.Decimal

open Float.Model (Format UnpackedFloat)

/-! ## Rounded quotients -/

/-- Where the exact half between two neighbours goes. -/
inductive Tie where
  /-- To the even neighbour. -/
  | toEven
  /-- To the greater neighbour. -/
  | upward
deriving DecidableEq, Repr

/-- The quotient rounded to the nearest whole number. -/
def roundDiv (tie : Tie) (num den : Nat) : Nat :=
  let quotient := num / den
  match compare (2 * (num % den)) den with
  | .lt => quotient
  | .gt => quotient + 1
  | .eq =>
    match tie with
    | .toEven => quotient + quotient % 2
    | .upward => quotient + 1

example : roundDiv .toEven 5 2 = 2 ∧ roundDiv .upward 5 2 = 3 ∧ roundDiv .toEven 7 2 = 4 := by
  decide

/-- A ratio of natural numbers. -/
structure Ratio where
  /-- The numerator. -/
  num : Nat
  /-- The denominator. -/
  den : Nat

/-- The ratio `m · 2^e · 10^k`. -/
def Ratio.of (m : Nat) (e k : Int) : Ratio where
  num := m * Nat.pow 2 e.toNat * Nat.pow 10 k.toNat
  den := Nat.pow 2 (-e).toNat * Nat.pow 10 (-k).toNat

/-- The digits of a natural number. -/
def digits (n : Nat) : List Char := Nat.toDigits 10 n

/-- The decimal exponent of a positive ratio: the greatest `k` with `10^k` at
most the ratio. -/
def Ratio.exponent (r : Ratio) : Int :=
  if r.den ≤ r.num then ((digits (r.num / r.den)).length : Int) - 1
  else -((digits ((r.den - 1) / r.num)).length : Int)

example : (Ratio.of 1 0 0).exponent = 0 ∧ (Ratio.of 999 0 (-3)).exponent = -1
    ∧ (Ratio.of 1 0 (-3)).exponent = -3 := by decide

/-! ## Fixed places and scientific notation -/

/-- The digits of `n / 10^places`, with the point. -/
def pointed (n places : Nat) : List Char :=
  let ds := digits n
  let padded := List.replicate (places + 1 - ds.length) '0' ++ ds
  let whole := padded.length - places
  if places = 0 then padded else padded.take whole ++ '.' :: padded.drop whole

/-- The sign of a text. -/
def minus (negative : Bool) : List Char := if negative then ['-'] else []

/-- The name of an infinity or of the undefined number. -/
def infinite (negative : Bool) : List Char := minus negative ++ "inf".toList

/-- The text with exactly `places` digits after the point, ties to even.  The
sign is kept even where every digit is zero. -/
def fixed (places : Nat) : UnpackedFloat → List Char
  | .notANumber => "NaN".toList
  | .infinity sign => infinite (sign == .negative)
  | .zero sign => minus (sign == .negative) ++ pointed 0 places
  | .finite sign m e _ =>
    let r := Ratio.of m e places
    minus (sign == .negative) ++ pointed (roundDiv .toEven r.num r.den) places

/-- Digits and exponent of a positive number with `places` digits after the
point, ties to even.  Rounding up to a power of ten moves the exponent. -/
def significant (places m : Nat) (e : Int) : Nat × Int :=
  let k := (Ratio.of m e 0).exponent
  let r := Ratio.of m e (places - k)
  let n := roundDiv .toEven r.num r.den
  if n = Nat.pow 10 (places + 1) then (Nat.pow 10 places, k + 1) else (n, k)

/-- The text of an exponent. -/
def exponentText (plus : Bool) (k : Int) : List Char :=
  'e' :: (if k < 0 then ['-'] else if plus then ['+'] else []) ++ digits k.natAbs

/-- Scientific notation with exactly `places` digits after the point. -/
def scientific (places : Nat) : UnpackedFloat → List Char
  | .notANumber => "NaN".toList
  | .infinity sign => infinite (sign == .negative)
  | .zero sign => minus (sign == .negative) ++ pointed 0 places ++ exponentText false 0
  | .finite sign m e _ =>
    let (n, k) := significant places m e
    minus (sign == .negative) ++ pointed n places ++ exponentText false k

/-! ## Shortest digits -/

/-- A positive decimal, `n · 10^k`. -/
structure Shortest where
  /-- The digits, as a number. -/
  n : Nat
  /-- The exponent of the last digit. -/
  k : Int
deriving DecidableEq, Repr

/-- The numbers that round to `m · 2^e`, in quarters of `2^e`.  Below a power of
two the neighbour is nearer. -/
structure Interval where
  /-- The lower end. -/
  low : Nat
  /-- The upper end. -/
  high : Nat
  /-- The ends round to the number too. -/
  closed : Bool

/-- The rounding interval of `m · 2^e` in a format. -/
def Interval.of (format : Format) (m : Nat) (e : Int) : Interval where
  low := if m = Nat.pow 2 format.mantissaBitsWithoutImplicit ∧ format.minExponent < e
    then 4 * m - 1 else 4 * m - 2
  high := 4 * m + 2
  closed := m % 2 = 0

/-- Whether `n · 10^k` lies in an interval around a number of exponent `e`. -/
def Interval.holds (i : Interval) (e : Int) (n : Nat) (k : Int) : Bool :=
  let r := Ratio.of n (2 - e) k
  if i.closed then i.low * r.den ≤ r.num ∧ r.num ≤ i.high * r.den
  else i.low * r.den < r.num ∧ r.num < i.high * r.den

/-- The point of the grid `10^k` that stands for `m · 2^e`, if one of its two
neighbours there reads back. -/
def neighbour? (tie : Tie) (i : Interval) (m : Nat) (e k : Int) : Option Nat :=
  let r := Ratio.of m e (-k)
  let below := r.num / r.den
  match i.holds e below k, i.holds e (below + 1) k with
  | true, true => some (roundDiv tie r.num r.den)
  | true, false => some below
  | false, true => some (below + 1)
  | false, false => none

/-- The same decimal without zeros at its end. -/
def trimmed : Nat → Nat → Int → Shortest
  | 0, n, k => ⟨n, k⟩
  | fuel + 1, n, k => if n % 10 = 0 then trimmed fuel (n / 10) (k + 1) else ⟨n, k⟩

/-- The shortest decimal that reads back as `m · 2^e`.  Seventeen digits tell
any two numbers of either precision apart. -/
def shortest (format : Format) (tie : Tie) (m : Nat) (e : Int) : Shortest :=
  let top := (Ratio.of m e 0).exponent
  let i := Interval.of format m e
  let found := (List.range 17).findSome? fun (j : Nat) =>
    (neighbour? tie i m e (top - j)).map fun n => trimmed (j + 1) n (top - j)
  found.getD ⟨m * Nat.pow 2 e.toNat, 0⟩

/-! ## Styles -/

/-- What the writer of a shortest text decides. -/
structure Style where
  /-- The format whose numbers are read back. -/
  format : Format
  /-- The rule for two equally near decimals. -/
  tie : Tie
  /-- Positional notation starts at this decimal exponent, if it ends at all
  towards zero. -/
  least : Option Int
  /-- Positional notation stops at this decimal exponent, if it stops. -/
  most : Option Int
  /-- A whole number is written with a zero after the point. -/
  pointZero : Bool
  /-- The text of an infinity or of the undefined number, if they have one of
  their own. -/
  unbounded : Option (List Char)

/-- Positional notation of `n · 10^k`. -/
def positional (pointZero : Bool) (n : Nat) (k : Int) : List Char :=
  if 0 ≤ k then
    digits (n * Nat.pow 10 k.toNat) ++ (if pointZero then ".0".toList else [])
  else pointed n k.natAbs

/-- Scientific notation of `n · 10^k`, a point only between digits. -/
def normalised (n : Nat) (k : Int) : List Char :=
  let ds := digits n
  let mantissa := match ds with
    | d :: rest => if rest.isEmpty then [d] else d :: '.' :: rest
    | [] => []
  mantissa ++ exponentText true (k + ds.length - 1)

/-- The shortest text in a style. -/
def Style.text (s : Style) : UnpackedFloat → List Char
  | .notANumber => s.unbounded.getD "NaN".toList
  | .infinity sign => s.unbounded.getD (infinite (sign == .negative))
  | .zero sign => minus (sign == .negative) ++ positional s.pointZero 0 0
  | .finite sign m e _ =>
    let d := shortest s.format s.tie m e
    let top := d.k + (digits d.n).length - 1
    let plain := s.least.all (· ≤ top) && s.most.all (top < ·)
    minus (sign == .negative) ++
      if plain then positional s.pointZero d.n d.k else normalised d.n d.k

/-- Numbers in messages: never an exponent, no point in a whole number. -/
def inMessages : Style := ⟨.binary32, .upward, none, none, false, none⟩

/-- Singles in documents: positional from a millionth to ten million million,
`null` for what is no number. -/
def inDocuments : Style := ⟨.binary32, .toEven, some (-6), some 13, true, some "null".toList⟩

/-- Doubles in documents. -/
def wideInDocuments : Style := ⟨.binary64, .toEven, some (-5), some 16, true, some "null".toList⟩

/-- The text of a single in a style. -/
def Style.single (s : Style) (x : Float32) : List Char := s.text x.toModel.unpack

/-- The text of a double in a style. -/
def Style.double (s : Style) (x : Float) : List Char := s.text x.toModel.unpack

example : inMessages.single 149.9 = "149.9".toList ∧ inMessages.single (-0.0) = "-0".toList
    ∧ inMessages.single 44100 = "44100".toList := by decide +kernel
example : inDocuments.single 18 = "18.0".toList ∧ inDocuments.single 1e13 = "1e+13".toList
    ∧ inDocuments.single 1e-6 = "0.000001".toList
    ∧ inDocuments.single 4.3582e-7 = "4.3582e-7".toList
    ∧ inDocuments.single (1 / 0) = "null".toList := by decide +kernel
example : wideInDocuments.double 0.1 = "0.1".toList ∧ wideInDocuments.double 1e16 = "1e+16".toList
    ∧ wideInDocuments.double 5e-324 = "5e-324".toList := by decide +kernel
/-- The tie between `2097152.2` and `2097152.3`. -/
example : inMessages.single 2097152.25 = "2097152.3".toList
    ∧ inDocuments.single 2097152.25 = "2097152.2".toList := by decide +kernel
example : fixed 1 (Float32.toModel 31.25).unpack = "31.2".toList
    ∧ scientific 3 (Float32.toModel 0.05067).unpack = "5.067e-2".toList
    ∧ fixed 2 (Float32.toModel (-0.001)).unpack = "-0.00".toList := by decide +kernel

end Denoise.Decimal
