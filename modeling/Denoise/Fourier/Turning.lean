import Denoise.Fourier.Plane

/-!
# Turns

A transform of `r * q` points may start with transforms of `r` points that lie `q`
apart.  Bin `i` of the points from `c` on is then turned by `i * c` of the `r * q` parts
of the circle.

Where every number is finite, it does not matter much how a turn is made.  An
infinite number shows it.  A quarter turn exchanges the parts of a number, and what
is undefined in one part does not reach the other one.  In a product it does.  Even
a product with one is undefined in a part, because one has an imaginary part of
zero.
-/

namespace Denoise.Fourier

/-- How bins are turned. -/
inductive Turning where
  /-- Bin zero is left as it is.  All others are multiplied, also by one. -/
  | throughout
  /-- What is turned by nothing is left as it is.  All else is multiplied. -/
  | sparing
  /-- As before, but turns by an eighth, a quarter or three eighths need no root. -/
  | exact
deriving DecidableEq

/-- By how many parts row `k` of `r * q` rows is turned.  A turn by all the parts is a
product with one. -/
@[inline] def Turning.parts (t : Turning) (r q k : Nat) : Nat :=
  let i := k / q
  let c := k % q
  if t = .throughout ∧ i ≠ 0 ∧ c = 0 then r * q else i * c

example : (List.range 6).map (Turning.throughout.parts 2 3) = [0, 0, 0, 6, 1, 2]
    ∧ (List.range 6).map (Turning.sparing.parts 2 3) = [0, 0, 0, 0, 1, 2] := by decide

/-- One part of a number after an eighth turn.  The number has the part `x`, and the
part `z` after a quarter turn. -/
@[inline] def eighth (m : Manner) (x z : Float) : Float :=
  m.round (m.round (z + x) * m.round (0.5 : Float).sqrt)

/-- The real part of a number turned by `e` of `n` parts. -/
@[inline] def turnedRe (m : Manner) (t : Turning) (table : Plane) (n e : Nat) (re im : Float) :
    Float :=
  let quarter := if m.inverse then -im else im
  if e = 0 then re
  else if t = .exact ∧ 4 * e = n then quarter
  else if t = .exact ∧ 8 * e = n then eighth m re quarter
  else if t = .exact ∧ 8 * e = 3 * n then eighth m (-re) quarter
  else m.productRe re im (table.re.get! (e % n)) (table.im.get! (e % n))

/-- The imaginary part of a number turned by `e` of `n` parts. -/
@[inline] def turnedIm (m : Manner) (t : Turning) (table : Plane) (n e : Nat) (re im : Float) :
    Float :=
  let quarter := if m.inverse then re else -re
  if e = 0 then im
  else if t = .exact ∧ 4 * e = n then quarter
  else if t = .exact ∧ 8 * e = n then eighth m im quarter
  else if t = .exact ∧ 8 * e = 3 * n then eighth m (-im) quarter
  else m.productIm re im (table.re.get! (e % n)) (table.im.get! (e % n))

/-- The turns after transforms of `r` points.  A block has `r * q` rows, and row
`i * q + c` holds bin `i` of the points from `c` on. -/
def turn (m : Manner) (t : Turning) (r q outer inner : Nat) (y : Plane) : Plane :=
  let n := r * q
  let table := roots m n
  ⟨sweep outer n inner fun b k s =>
      let i := (b * n + k) * inner + s
      turnedRe m t table n (t.parts r q k) (y.re.get! i) (y.im.get! i),
    sweep outer n inner fun b k s =>
      let i := (b * n + k) * inner + s
      turnedIm m t table n (t.parts r q k) (y.re.get! i) (y.im.get! i)⟩

end Denoise.Fourier
