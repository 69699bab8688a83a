import Denoise.Arithmetic

/-!
# Filling bins that are not trusted

A bin that is not trusted takes a value from the trusted ones around it: on the
straight line between its two trusted neighbours, or the value of the only one
it has.  Its own value is dropped before anything is computed, so nothing can
depend on it.
-/

namespace Denoise

section Filling

variable {K : Type} [OfScientific K] [Add K] [Sub K] [Mul K] [Div K]

/-- The values strictly between two trusted ones that are `gap + 1` apart. -/
def bridge (gap : Nat) (a b : K) : List K :=
  (List.range gap).map fun j => a + (b - a) * (ofCount (j + 1) / ofCount (gap + 1))

/-- The bins after a trusted one of value `a`, of which `gap` untrusted ones have
been passed already. -/
def fillAfter (a : K) (gap : Nat) : List (Option K) → List K
  | [] => List.replicate gap a
  | none :: later => fillAfter a (gap + 1) later
  | some b :: later => bridge gap a b ++ b :: fillAfter b 0 later

/-- The bins from the front, of which `gap` untrusted ones have been passed
already.  There is no result if no bin is trusted. -/
def fillFrom (gap : Nat) : List (Option K) → Option (List K)
  | [] => none
  | none :: later => fillFrom (gap + 1) later
  | some b :: later => some (List.replicate gap b ++ b :: fillAfter b 0 later)

/-- The bins with every untrusted one filled, or nothing if none is trusted. -/
def fillUntrusted (values : List K) (trusted : List Bool) : Option (List K) :=
  fillFrom 0 (List.zipWith (fun v t => if t then some v else none) values trusted)

end Filling

example : fillUntrusted ([9, 9, 1, 9, 9, 4, 9] : List Float32)
      [false, false, true, false, false, true, false]
    = some [1, 1, 1, 2, 3, 4, 4] := by decide +kernel
example : fillUntrusted ([3, 5] : List Float32) [false, false] = none := by decide

end Denoise
