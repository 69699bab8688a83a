import Denoise.Arithmetic

/-!
# Moving averages over bins

A centred moving average keeps a sum of the bins under its window in the wide
precision.  From one bin to the next the window's two bounds move, and only the
bins that enter or leave are added or subtracted.  At the edges the window is
cut off, so an average is over the neighbours that exist.

The pass is generic in the two number types, which a `Passage` ties together.
-/

namespace Denoise

/-- The two directions between a narrow and a wide number type. -/
structure Passage (K W : Type) where
  /-- Into the wide type. -/
  widen : K → W
  /-- Back into the narrow type. -/
  narrow : W → K

/-- Singles, summed in doubles. -/
def Passage.float : Passage Float32 Float := ⟨Denoise.widen, Denoise.narrow⟩

section Average

variable {K W : Type}

/-- A sum over the bins `low ≤ j < high`. -/
structure RunningSum (K W : Type) where
  /-- The sum. -/
  sum : W
  /-- The first bin in the sum. -/
  low : Nat
  /-- The first bin after the sum. -/
  high : Nat
  /-- The bins from `low` on. -/
  leaving : List K
  /-- The bins from `high` on. -/
  entering : List K

/-- The empty sum before the first bin. -/
def RunningSum.start [Zero W] (bins : List K) : RunningSum K W := ⟨0, 0, 0, bins, bins⟩

/-- The sum with its bounds moved forward.  Bins enter first, and leave after. -/
def RunningSum.moveTo [Add W] [Sub W] (p : Passage K W) (r : RunningSum K W) (low high : Nat) :
    RunningSum K W :=
  let entered := (r.entering.take (high - r.high)).foldl (fun sum x => sum + p.widen x) r.sum
  let left := (r.leaving.take (low - r.low)).foldl (fun sum x => sum - p.widen x) entered
  ⟨left, low, high, r.leaving.drop (low - r.low), r.entering.drop (high - r.high)⟩

/-- The mean of the bins in a sum. -/
def RunningSum.mean [Div W] [OfScientific W] (p : Passage K W) (r : RunningSum K W) : K :=
  p.narrow (r.sum / ofCount (r.high - r.low))

/-- The averages at the given bins, in turn.  The window of bin `i` starts
`before` bins below it and ends `after` bins above it. -/
def averagesAt [Add W] [Sub W] [Div W] [OfScientific W] (p : Passage K W)
    (before after count : Nat) : RunningSum K W → List Nat → List K
  | _, [] => []
  | r, i :: later =>
    let r := r.moveTo p (i - before) (min (i + after + 1) count)
    r.mean p :: averagesAt p before after count r later

/-- The centred moving average of the bins.  Windows of no bin or of one bin
leave the bins as they are. -/
def movingAverage [Zero W] [Add W] [Sub W] [Div W] [OfScientific W] (p : Passage K W)
    (width : Nat) (bins : List K) : List K :=
  if width ≤ 1 then bins
  else
    let before := width / 2
    let after := width - before - 1
    averagesAt p before after bins.length (.start bins) (List.range bins.length)

end Average

example : movingAverage .float 3 [0, 1, 2, 3] = [0.5, 1, 2, 2.5] := by decide +kernel
example : movingAverage .float 2 [4, 8, 6] = [4, 6, 7] := by decide +kernel

end Denoise
