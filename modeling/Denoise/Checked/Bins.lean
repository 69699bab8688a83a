import Denoise.Bins.Filling
import Denoise.Bins.Rank
import Denoise.Bins.Smoothing
import Denoise.Checked

/-!
# Checked passes over bins

The moving average, the percentile and the filling of untrusted bins as they run, with
every index and every count checked.
-/

namespace Denoise

namespace Checked

/-! ## Moving averages -/

/-- A moving average under way. -/
structure Sliding where
  /-- The averages, of which those before the window are done. -/
  averages : List Float32
  /-- The sum of the bins under the window. -/
  sum : Float
  /-- The first bin in the sum. -/
  low : Nat
  /-- The first bin after the sum. -/
  high : Nat

/-- The sum with the next `count` bins in it. -/
def enter (bins : List Float32) (count first : Nat) (sum : Float) : Checked Float :=
  forEach (fun j sum => do return sum + widen (← get bins j)) count first sum

/-- The sum without its first `count` bins. -/
def leave (bins : List Float32) (count first : Nat) (sum : Float) : Checked Float :=
  forEach (fun j sum => do return sum - widen (← get bins j)) count first sum

/-- The window moved to bin `i`, and its average. -/
def averageAt (bins : List Float32) (before after i : Nat) (s : Sliding) : Checked Sliding := do
  let high := min (i + after + 1) bins.length
  let entered ← enter bins (high - s.high) s.high s.sum
  let left ← leave bins (i - before - s.low) s.low entered
  let high := max s.high high
  let low := max s.low (i - before)
  let count ← divisor (← minus high low)
  let averages ← put s.averages i (narrow (left / count))
  return ⟨averages, left, low, high⟩

/-- The centred moving average of the bins, written over `out`. -/
def movingAverage (width : Nat) (bins out : List Float32) : Checked (List Float32) := do
  require (bins.length = out.length)
  if bins.length = 0 ∨ width ≤ 1 then copyFrom out bins
  else
    let before := width / 2
    let after ← minus (← minus width before) 1
    let s ← forEach (averageAt bins before after) out.length 0 ⟨out, 0, 0, 0⟩
    return s.averages

/-! ## Order statistics -/

/-- The entry at a fraction of an ascending list. -/
def percentile (ascending : List Float32) (fraction : Float32) : Checked Float32 := do
  if ascending.isEmpty then return 0
  else
    let last ← minus ascending.length 1
    let share ← clamp 0 1 fraction
    let rank := nearestWhole (ofCount last * share)
    get ascending (min rank (← minus ascending.length 1))

/-! ## Filling -/

section Filling

variable {K : Type} [OfScientific K] [Add K] [Sub K] [Mul K] [Div K]

/-- The last bin that is trusted. -/
def lastTrusted? (trusted : List Bool) : Option Nat :=
  (trusted.reverse.findIdx? id).map fun back => trusted.length - 1 - back

/-- Bins filled so far, and the trusted bin that was passed last. -/
structure Filling (K : Type) where
  /-- The bins. -/
  values : List K
  /-- The trusted bin. -/
  last : Nat

/-- The bins between two trusted ones filled. -/
def bridge (values : List K) (last i : Nat) : Checked (List K) := do
  let a ← get values last
  let b ← get values i
  let span : K ← divisor (← minus i last)
  forEach (fun j values => do put values j (a + (b - a) * (ofCount (← minus j last) / span)))
    (i - (last + 1)) (last + 1) values

/-- Bin `i` passed.  If it is trusted, the bins since the last one are filled. -/
def passBin (trusted : List Bool) (i : Nat) (f : Filling K) : Checked (Filling K) := do
  if ← get trusted i then
    if f.last + 1 < i then return ⟨← bridge f.values f.last i, i⟩
    else return ⟨f.values, i⟩
  else return f

/-- The bins with every untrusted one filled in place, or nothing if none is trusted. -/
def fillUntrusted (values : List K) (trusted : List Bool) : Checked (Option (List K)) := do
  require (values.length = trusted.length)
  match trusted.findIdx? id with
  | none => return none
  | some first =>
    let last := (lastTrusted? trusted).getD first
    let values ← fill values 0 first (← get values first)
    let values ← fill values (last + 1) values.length (← get values last)
    let f ← forEach (passBin trusted) (last - first) (first + 1) ⟨values, first⟩
    return some f.values

end Filling

end Checked

end Denoise
