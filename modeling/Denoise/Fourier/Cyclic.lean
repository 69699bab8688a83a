import Denoise.Fourier.Plane

/-!
# Transforms of a prime number of points

The powers of a *generator* `g` are all numbers but zero, modulo the prime `p`.  Let the
points but the first be in the order `g ^ j`.  For bin `g ^ (-k)` point `g ^ j` is
multiplied by the root of unity to the power `g ^ (j - k)`.  So the bins but the first
are a convolution, which is cyclic, of `p - 1` points: a product of transforms of one
point less.

The first point is added to bin zero of that product, from where it comes to every
bin.  The first bin is the sum of the points.
-/

namespace Denoise.Fourier

/-- Powers of `g` modulo `p`, from `x` on. -/
def powersFrom (p g : Nat) : (turns x : Nat) → List Nat
  | 0, _ => []
  | turns + 1, x => x :: powersFrom p g turns (x * g % p)

/-- The first `p - 1` powers of `g` modulo `p`. -/
def powers (p g : Nat) : List Nat := powersFrom p g (p - 1) 1

/-- The least number whose powers are all numbers but zero, modulo `p`.  There is one
for every odd prime, and for no number that is not prime. -/
def generator? (p : Nat) : Option Nat :=
  (List.range p).find? fun g =>
    let xs := powers p g
    !xs.contains 0 && xs.eraseDups.length == p - 1

example : powers 7 3 = [1, 3, 2, 6, 4, 5] ∧ generator? 7 = some 3 ∧ generator? 13 = some 2
    ∧ generator? 15 = none := by decide

/-- One part of the product, with the first point added to its bin zero. -/
def withFirst (p outer inner : Nat) (xs product : FloatArray) : FloatArray :=
  sweep outer (p - 1) inner fun b k s =>
    let z := product.get! ((b * (p - 1) + k) * inner + s)
    if k = 0 then z + xs.get! (b * p * inner + s) else z

/-- One part of the bins: the sum of the points, and the convolution rearranged. -/
def withSum (m : Manner) (p outer inner : Nat) (place : Nat → Nat)
    (xs bins convolution : FloatArray) : FloatArray :=
  let n := p - 1
  sweep outer p inner fun b k s =>
    m.round <|
      if k = 0 then xs.get! (b * p * inner + s) + bins.get! (b * n * inner + s)
      else convolution.get! ((b * n + place k) * inner + s)

/-- Transforms of a prime number of points with a generator, given transforms of one
point less.  They work in double precision. -/
def cyclic (p g : Nat) (inside : Along) : Along := fun m outer inner y =>
  let n := p - 1
  let order := powers p g
  let source := order.toArray
  let places := ((List.range p).map fun k => (n - order.idxOf k) % n).toArray
  let kernel := inside .there 1 1 <|
    (roots { Manner.there with inverse := m.inverse } p).rearrange 1 p n 1 fun j =>
      source.getD ((n - j) % n) 0
  let bins := inside .there outer inner (y.rearrange outer p n inner (source.getD · 0))
  let product := bins.weighted outer n inner (1 / n.toUInt64.toFloat) kernel
  let convolution := inside .back outer inner
    ⟨withFirst p outer inner y.re product.re, withFirst p outer inner y.im product.im⟩
  ⟨withSum m p outer inner (places.getD · 0) y.re bins.re convolution.re,
    withSum m p outer inner (places.getD · 0) y.im bins.im convolution.im⟩

end Denoise.Fourier
