import Denoise.Fourier.Scheme

/-!
# A scheme for every size

A size is split into a *base* and a list of factors.  The transform starts with the
factor that was found last, and ends with the base.

A number with no prime factor above 11 is *smooth*.  The base of a smooth size is the
size itself if there is a layout for it.  Otherwise its factors 2 and 3 make up the
base, or a part of them does.  Where a size is not smooth, the base is what is left
when all small prime factors are taken out.  It is transformed by a convolution.
-/

namespace Denoise.Fourier.Scheme

/-! ## Small sizes -/

/-- Four points. -/
def four : Scheme := .mixed .exact (.sums 2) (.sums 2)

/-- Eight points. -/
def eight : Scheme := .mixed .exact four (.sums 2)

/-- The scheme of a factor: two, three, five, seven, eleven or a small product. -/
def ofFactor : Nat → Scheme
  | 4 => four
  | 6 => .coprime (.sums 3) (.sums 2)
  | 8 => eight
  | 9 => .mixed .exact (.sums 3) (.sums 3)
  | 12 => .coprime four (.sums 3)
  | 16 => .mixed .exact four four
  | 32 => .mixed .exact four eight
  | p => .sums p

/-- How a base is split in two, and how it is turned between the two. -/
def layout? : Nat → Option (Turning × Nat × Nat)
  | 8 => some (.throughout, 2, 4)
  | 9 => some (.throughout, 3, 3)
  | 12 => some (.throughout, 4, 3)
  | 16 => some (.throughout, 4, 4)
  | 24 => some (.throughout, 6, 4)
  | 32 => some (.throughout, 4, 8)
  | 36 => some (.sparing, 4, 9)
  | 48 => some (.throughout, 4, 12)
  | 64 => some (.throughout, 8, 8)
  | 72 => some (.throughout, 6, 12)
  | 128 => some (.throughout, 8, 16)
  | 256 => some (.throughout, 8, 32)
  | 512 => some (.throughout, 16, 32)
  | _ => none

/-- Whether a number can be a base. -/
def isBase (n : Nat) : Bool := n ≤ 9 || n = 11 || (layout? n).isSome

/-- The scheme of a base. -/
def ofBase (n : Nat) : Scheme :=
  match layout? n with
  | some (t, r, q) => .mixed t (ofFactor r) (ofFactor q)
  | none => ofFactor n

/-! ## Smooth sizes -/

/-- The largest power of `p` that divides a number. -/
def powerIn (p : Nat) : (turns n : Nat) → Nat
  | 0, _ => 1
  | turns + 1, n => if n ≠ 0 ∧ n % p = 0 then p * powerIn p turns (n / p) else 1

/-- The base for `twos` and `threes`, a power of two and a power of three, where their
product is large and no base itself. -/
def largeBase (twos threes : Nat) : Nat :=
  match twos * threes with
  | 18 => 3
  | 96 => 32
  | 144 => 36
  | 192 => 48
  | _ =>
    if threes = 1 then (if Nat.log2 twos % 3 = 0 then 512 else 256)
    else if threes = 3 then (if Nat.log2 twos % 3 = 1 then 48 else 64)
    else if 8 ≤ twos then 72
    else if twos = 4 then 36
    else 9

/-- The base of a smooth size. -/
def baseOf (n : Nat) : Nat :=
  let twos := powerIn 2 n n
  let threes := powerIn 3 n n
  if isBase n then n
  else if 4 < twos * threes then
    if isBase (twos * threes) then twos * threes else largeBase twos threes
  else if n % 11 = 0 then 11
  else if n % 7 = 0 then 7
  else 5

/-- The factors of a smooth number, those next to the base first. -/
def factorsOf : (turns n : Nat) → List Nat
  | 0, _ => []
  | turns + 1, n =>
    if n ≤ 1 then []
    else if n ≤ 9 || n = 12 || n = 16 then [n]
    else
      match [9, 8, 11, 7, 5, 6, 4, 3, 2].find? (n % · = 0) with
      | some p => p :: factorsOf turns (n / p)
      | none => []

/-- A scheme with factors before it. -/
def withFactors (base : Scheme) (n : Nat) : Scheme :=
  (factorsOf n n).foldl (fun s p => .mixed .throughout (ofFactor p) s) base

/-- The scheme of a smooth size. -/
def ofSmooth (n : Nat) : Scheme := withFactors (ofBase (baseOf n)) (n / baseOf n)

/-! ## All sizes -/

/-- What is left of a number when all its prime factors up to 11 are taken out. -/
def roughPart (n : Nat) : Nat := [2, 3, 5, 7, 11].foldl (fun n p => n / powerIn p n n) n

/-- The largest prime number of points that a cyclic convolution is used for. -/
def largestCyclic : Nat := 100

/-- The scheme of a number of points with no prime factor up to 11. -/
def ofRough (n : Nat) : Scheme :=
  let g := if n ≤ largestCyclic ∧ roughPart (n - 1) = 1 then generator? n else none
  match g with
  | some g => .cyclic n g (ofSmooth (n - 1))
  | none => .chirp n (ofSmooth (spanFor n))

/-- The scheme of a size. -/
def ofSize (n : Nat) : Scheme :=
  let rough := roughPart n
  if n ≤ 1 then .sums n
  else if rough = 1 then ofSmooth n
  else withFactors (ofRough rough) (n / rough)

example : [8, 40, 80, 320, 1920].map baseOf = [8, 8, 16, 64, 48]
    ∧ roughPart 884 = 221 := by decide +kernel
example : [0, 1, 20, 52, 96, 148, 404, 1764, 1920].map (fun n => (ofSize n).size)
    = [0, 1, 20, 52, 96, 148, 404, 1764, 1920] := by decide +kernel

end Denoise.Fourier.Scheme
