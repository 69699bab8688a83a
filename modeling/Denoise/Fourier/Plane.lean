import Denoise.Fourier

/-!
# Planes

A plane is a list of complex numbers with its real and its imaginary parts in an
array each.  Transforms work on planes, in single or in double precision.

The arrays hold doubles.  In single precision every result is rounded to a single.
A sum or a product of two singles that is rounded to a double first comes out as if
it were rounded once.  A product of two singles is exact as a double.  So a product
and a sum are *fused* where only the sum is rounded.

A plane may hold many lists.  It has `outer` blocks of rows, and a row has `inner`
numbers.  In a plane with `size` rows a block, number `s` of row `k` of block `b` lies
at `(b * size + k) * inner + s`.  Transforms of `size` points are made of all numbers
at once that differ in `k` only.
-/

namespace Denoise.Fourier

/-! ## How a transform is computed -/

/-- The precision of a transform. -/
inductive Precision where
  /-- Every result is a single. -/
  | single
  /-- Every result is a double. -/
  | double
deriving DecidableEq

/-- A precision and a direction. -/
structure Manner where
  /-- The precision. -/
  precision : Precision
  /-- Whether it goes from bins to samples. -/
  inverse : Bool
deriving DecidableEq

namespace Manner

/-- To bins, in double precision. -/
def there : Manner := ⟨.double, false⟩

/-- From bins, in double precision. -/
def back : Manner := ⟨.double, true⟩

/-- A result, rounded. -/
@[inline] def round (m : Manner) (x : Float) : Float :=
  match m.precision with
  | .single => x.toFloat32.toFloat
  | .double => x

/-- The real part of the product of `a + bi` and `c + di`.  Its first term is fused. -/
@[inline] def productRe (m : Manner) (a b c d : Float) : Float := m.round (a * c - m.round (b * d))

/-- The imaginary part of the product of `a + bi` and `c + di`. -/
@[inline] def productIm (m : Manner) (a b c d : Float) : Float := m.round (a * d + m.round (b * c))

end Manner

/-! ## Planes -/

/-- Complex numbers in two arrays. -/
structure Plane where
  /-- The real parts. -/
  re : FloatArray
  /-- The imaginary parts. -/
  im : FloatArray

/-- Transforms of all the lists of a plane, in any manner. -/
abbrev Along := Manner → (outer inner : Nat) → Plane → Plane

/-- An array of `n` numbers, each given by its index. -/
@[inline] def tabulate (n : Nat) (f : Nat → Float) : FloatArray :=
  n.fold (fun i _ xs => xs.push (f i)) (.emptyWithCapacity n)

/-- The numbers of blocks of `size` rows.  `f b k s` is number `s` of row `k` of block `b`. -/
@[inline] def sweep (outer size inner : Nat) (f : (b k s : Nat) → Float) : FloatArray :=
  outer.fold (fun b _ xs =>
    size.fold (fun k _ xs =>
      inner.fold (fun s _ xs => xs.push (f b k s)) xs) xs)
    (.emptyWithCapacity (outer * size * inner))

namespace Plane

/-- The numbers of a list. -/
def ofList (zs : List Sample) : Plane :=
  ⟨zs.foldl (fun xs z => xs.push z.re.toFloat) .empty,
    zs.foldl (fun xs z => xs.push z.im.toFloat) .empty⟩

/-- A number of a plane as a sample. -/
def sample (y : Plane) (i : Nat) : Sample :=
  ⟨(y.re.get! i).toFloat32, (y.im.get! i).toFloat32⟩

/-- A plane with `size` rows a block, taken from one with `rows` rows a block.  Row `k`
is what was row `place k`. -/
@[inline] def rearrange (outer rows size inner : Nat) (place : Nat → Nat) (y : Plane) : Plane :=
  ⟨sweep outer size inner fun b k s => y.re.get! ((b * rows + place k) * inner + s),
    sweep outer size inner fun b k s => y.im.get! ((b * rows + place k) * inner + s)⟩

/-- The numbers of a plane times a share of one weight for each row of a block. -/
def weighted (outer size inner : Nat) (share : Float) (y weights : Plane) : Plane :=
  let m := Manner.there
  ⟨sweep outer size inner fun b k s =>
      let i := (b * size + k) * inner + s
      share * m.productRe (y.re.get! i) (y.im.get! i) (weights.re.get! k) (weights.im.get! k),
    sweep outer size inner fun b k s =>
      let i := (b * size + k) * inner + s
      share * m.productIm (y.re.get! i) (y.im.get! i) (weights.re.get! k) (weights.im.get! k)⟩

end Plane

/-! ## Roots of unity -/

/-- The angle of `j` turns by one of `n` equal parts of the circle. -/
def angle (j n : Nat) : Float :=
  -2 * 3.141592653589793 / n.toUInt64.toFloat * j.toUInt64.toFloat

/-- The powers of the root of unity of order `n`. -/
def roots (m : Manner) (n : Nat) : Plane :=
  let sine (j : Nat) : Float := m.round (angle j n).sin
  ⟨tabulate n fun j => m.round (angle j n).cos,
    tabulate n fun j => if m.inverse then -sine j else sine j⟩

end Denoise.Fourier
