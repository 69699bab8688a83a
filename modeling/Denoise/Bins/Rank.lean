import Denoise.Arithmetic

/-!
# Order statistics

Singles have a total order by their bits: negative numbers below positive ones,
the infinities around the finite numbers, and the undefined number above all.
Sorting uses that order, so it is a function of the values alone.  A percentile
is the entry of nearest rank.
-/

namespace Denoise

/-- A key whose order is the total order of the singles. -/
def orderKey (x : Float32) : Int :=
  let bits := x.toBits
  if bits >>> 31 = 0 then (bits.toNat : Int) else -((bits &&& 0x7fffffff).toNat : Int) - 1

/-- Ascending in the total order. -/
def sorted (xs : List Float32) : List Float32 :=
  xs.mergeSort fun x y => orderKey x ≤ orderKey y

/-- The entry at a fraction of an ascending list, by nearest rank.  An empty
list has zero there. -/
def percentile (ascending : List Float32) (fraction : Float32) : Float32 :=
  let last := ascending.length - 1
  let rank := nearestWhole (ofCount last * clamp 0 1 fraction)
  ascending.getD (min rank last) 0

example : percentile [1, 2, 3, 4, 5, 6, 7, 8, 9, 10, 11] 0.1 = 2 ∧ percentile [] 0.5 = 0 := by
  decide +kernel

end Denoise
