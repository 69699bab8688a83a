import Denoise.Bins.Filling
import Denoise.Bins.Rank
import Denoise.Bins.Smoothing
import Denoise.Event
import Denoise.Gain
import Denoise.Window

/-!
# Noise profiles

A profile holds the noise power of every bin, which the gains divide by, and the
history that its refinement works on.

* *Sampling* averages the magnitudes of the first frames of a stretch that is
  assumed to be noise, smooths them for wideband input, and squares.
* *Refinement* runs once a frame.  It records the magnitudes and, once there is
  enough history and unless it is held, computes a new estimate.  At audio rate
  the mean of the newest frames is adopted only if its spread is smaller than
  the one tracked, so a strong signal never becomes part of the floor.  For
  wideband input the bins whose deviation over the history is smallest are
  trusted, and the others are filled from them.
* *Tracking* blends in a frame that the likelihood detector calls noise.

Whatever is adopted is made finite and raised to the power floor.
-/

namespace Denoise

/-! ## The profile -/

/-- Noise power by bin, and what refinement needs. -/
structure Profile where
  /-- The noise power of each bin. -/
  power : List Float32
  /-- Magnitudes of past frames, oldest first. -/
  history : List (List Float32)
  /-- The most frames of history, at least one. -/
  capacity : Nat
  /-- The number of estimates adopted. -/
  generation : Nat
  /-- Whether an estimate has been adopted. -/
  stable : Bool
  /-- The least power at the last adoption. -/
  floorLow : Float32
  /-- The greatest power at the last adoption. -/
  floorHigh : Float32
  /-- No bin was trusted since the last adoption. -/
  degenerate : Bool
deriving DecidableEq

namespace Profile

/-- A profile of no estimate. -/
def fresh (bins capacity : Nat) : Profile where
  power := List.replicate bins powerFloor
  history := []
  capacity := max capacity 1
  generation := 0
  stable := false
  floorLow := powerFloor
  floorHigh := powerFloor
  degenerate := false

/-- A power as it is adopted: finite, and not below the floor. -/
def usable (p : Float32) : Float32 := if p.isFinite then greater p powerFloor else powerFloor

/-- The least of some powers. -/
def leastOf (powers : List Float32) : Float32 := powers.foldl lesser greatestSingle

/-- The greatest of some powers, at least zero. -/
def greatestOf (powers : List Float32) : Float32 := powers.foldl greater 0

/-- A new estimate takes the place of the old one. -/
def adopt (p : Profile) (estimate : List Float32) : Profile :=
  let powers := estimate.map usable
  { p with
    power := powers
    floorLow := leastOf powers
    floorHigh := greatestOf powers
    generation := p.generation + 1
    stable := true
    degenerate := false }

/-- The magnitudes of a frame join the history, and the oldest leave a full one. -/
def record (p : Profile) (magnitudes : List Float32) : Profile :=
  let kept := if p.capacity ≤ p.history.length then p.history.drop 1 else p.history
  { p with history := kept ++ [magnitudes] }

end Profile

/-! ## The rules of a configuration -/

/-- What sampling and refinement depend on. -/
structure ProfileRules where
  /-- The frame geometry. -/
  geometry : Geometry
  /-- The most frames of history. -/
  capacity : Nat
  /-- Frames of history that refinement waits for. -/
  threshold : Nat
  /-- Whether noise frames are blended in. -/
  tracking : Bool
  /-- The threshold of the likelihood detector. -/
  vadThreshold : Float32
  /-- The smoothing factor of the blend. -/
  vadSmoothing : Float32

namespace ProfileRules

/-- The rules of some settings at a sample rate. -/
def of (g : Geometry) (s : Settings) : ProfileRules where
  geometry := g
  capacity := g.historyCapacity s
  threshold := g.refineThreshold s
  tracking := s.vadNoiseTracking
  vadThreshold := s.vadThreshold
  vadSmoothing := s.vadSmoothing

/-- A profile of no estimate for this configuration. -/
def freshProfile (r : ProfileRules) : Profile := .fresh r.geometry.fftSize r.capacity

/-! ## Sums over frames -/

/-- The sums by bin, each frame added in turn. -/
def sumFrames (bins : Nat) (frames : List (List Float32)) : List Float32 :=
  frames.foldl (List.zipWith (· + ·)) (List.replicate bins 0)

/-- A number squared. -/
def square (x : Float32) : Float32 := x * x

/-! ## Sampling -/

/-- Bins averaged over in a freshly sampled wideband profile. -/
def sampleWidth : Nat := 120

/-- The first `count` frames of a stretch that are whole, without overlap. -/
def wholeFrames (frameLen count : Nat) (samples : List Sample) : List (List Sample) :=
  match count with
  | 0 => []
  | count + 1 =>
    if samples.length < frameLen then []
    else samples.take frameLen :: wholeFrames frameLen count (samples.drop frameLen)

/-- The noise power of a stretch.  `magnitudes` gives those of a frame. -/
def sampledPower (r : ProfileRules) (magnitudes : List Sample → List Float32)
    (samples : List Sample) : List Float32 :=
  let g := r.geometry
  let count := max (min (samples.length / g.frameLen) g.noiseFrames) 1
  let frames := wholeFrames g.frameLen count samples
  let share : Float32 := 1 / ofCount count
  let means := (sumFrames g.fftSize (frames.map magnitudes)).map (· * share)
  (if g.wideband then movingAverage .float sampleWidth means else means).map square

/-- A profile sampled anew.  The history starts again. -/
def sample (r : ProfileRules) (magnitudes : List Sample → List Float32) (samples : List Sample)
    (p : Profile) : Profile :=
  { p with history := [] }.adopt (r.sampledPower magnitudes samples)

end ProfileRules

/-! ## Refinement -/

/-- What a refinement did. -/
inductive Refinement where
  /-- The frame was recorded, and there is not enough history yet. -/
  | accumulating
  /-- The frame was recorded, and refinement is held. -/
  | held
  /-- A new estimate was adopted. -/
  | adopted
  /-- A new estimate was not better than the old. -/
  | kept
  /-- No bin could be trusted. -/
  | degenerate
deriving DecidableEq, Repr

/-- A profile after a refinement. -/
structure Refined where
  /-- The profile. -/
  profile : Profile
  /-- What was done. -/
  outcome : Refinement
  /-- What is reported. -/
  events : List Event

namespace ProfileRules

/-- Bins averaged over in an estimate at audio rate. -/
def refineWidth : Nat := 6

/-- The estimate at audio rate: the mean magnitude of the newest frames, squared
and smoothed. -/
def audioEstimate (r : ProfileRules) (history : List (List Float32)) : List Float32 :=
  let recent := max (min r.geometry.noiseFrames history.length) 1
  let share : Float32 := 1 / ofCount recent
  let sums := sumFrames r.geometry.fftSize (history.reverse.take recent)
  movingAverage .float refineWidth (sums.map fun x => square (x * share))

/-- Refinement at audio rate: an estimate of smaller spread is adopted. -/
def refineAudio (r : ProfileRules) (p : Profile) : Refined :=
  let estimate := r.audioEstimate p.history
  let low := Profile.leastOf estimate
  let high := Profile.greatestOf estimate
  if high - low < p.floorHigh - p.floorLow then
    ⟨p.adopt estimate, .adopted, [.tighterFloor low high]⟩
  else ⟨p, .kept, []⟩

/-- The sum of a bin over the history, and the sum of its squares. -/
structure Moments where
  /-- The sum. -/
  sum : Float
  /-- The sum of the squares. -/
  squares : Float

/-- The moments with one magnitude more. -/
def Moments.add (m : Moments) (x : Float32) : Moments :=
  let v := widen x
  ⟨m.sum + v, m.squares + v * v⟩

/-- Mean and deviation of a bin. -/
structure Spread where
  /-- The mean. -/
  mean : Float32
  /-- The standard deviation. -/
  deviation : Float32

/-- Mean and deviation from the moments of `count` magnitudes. -/
def Moments.spread (m : Moments) (count : Nat) : Spread :=
  let n : Float := ofCount count
  let mean := m.sum / n
  let variance := greater (m.squares / n - mean * mean) 0
  ⟨narrow mean, narrow variance.sqrt⟩

/-- Mean and deviation of each bin over the history, oldest frame first. -/
def spreads (bins : Nat) (history : List (List Float32)) : List Spread :=
  let count := history.length
  (history.foldl (List.zipWith Moments.add) (List.replicate bins ⟨0, 0⟩)).map (·.spread count)

/-- Half the width of the centre that is never trusted, as a share of the bins. -/
def centreShare : Float32 := 0.15

/-- The percentile of the deviations that the threshold starts from. -/
def trustedShare : Float32 := 0.1

/-- The margin of the threshold over that percentile. -/
def trustedMargin : Float32 := 1.2

/-- Whether a bin lies in the centre of `n`. -/
def inCentre (n i : Nat) : Bool :=
  (ofCount i - ofCount n / 2 : Float32).abs < centreShare * ofCount n

/-- The deviation below which a bin is trusted: a margin over a low percentile
of the deviations outside the centre. -/
def trustThreshold (ss : List Spread) : Float32 :=
  let n := ss.length
  let outside := ss.zipIdx.filterMap fun (s, i) =>
    if inCentre n i then none else some s.deviation
  trustedMargin * percentile (sorted outside) trustedShare

/-- Whether a bin is trusted.  Where the threshold is zero, the bins that do not
deviate at all still are. -/
def trusts (threshold : Float32) (n : Nat) (s : Spread) (i : Nat) : Bool :=
  !inCentre n i
    && (s.deviation < threshold || (threshold == 0 && s.deviation == 0))
    && s.mean.isFinite

/-- The bins that are trusted. -/
def trustedBins (ss : List Spread) : List Bool :=
  let n := ss.length
  let threshold := trustThreshold ss
  ss.zipIdx.map fun (s, i) => trusts threshold n s i

/-- The estimate for wideband input, unless no bin is trusted. -/
def widebandEstimate (r : ProfileRules) (history : List (List Float32)) : Option (List Float32) :=
  let ss := spreads r.geometry.fftSize history
  fillUntrusted (ss.map fun s => square s.mean) (trustedBins ss)

/-- Refinement of wideband input.  That no bin is trusted is reported once. -/
def refineWideband (r : ProfileRules) (p : Profile) : Refined :=
  match r.widebandEstimate p.history with
  | some estimate => ⟨p.adopt estimate, .adopted, []⟩
  | none =>
    ⟨{ p with degenerate := true }, .degenerate, if p.degenerate then [] else [.noTrustedBins]⟩

/-- Refinement by one frame. -/
def refine (r : ProfileRules) (p : Profile) (magnitudes : List Float32) (held : Bool) : Refined :=
  let p := p.record magnitudes
  if p.history.length < r.threshold then ⟨p, .accumulating, []⟩
  else if held then ⟨p, .held, []⟩
  else if r.geometry.wideband then r.refineWideband p
  else r.refineAudio p

/-! ## Tracking -/

/-- A power with some of another blended in.  A blend that is not finite leaves
it as it is. -/
def blend (smoothing power other : Float32) : Float32 :=
  let blended := smoothing * power + (1 - smoothing) * other
  if blended.isFinite then greater blended powerFloor else power

/-- Whether the detector takes a frame for noise. -/
def isNoise (r : ProfileRules) (likelihood : Float32) : Bool :=
  r.tracking && !likelihood.isNaN && !(r.vadThreshold ≤ likelihood)

/-- The profile with a frame blended in, if the detector takes it for noise. -/
def track (r : ProfileRules) (p : Profile) (likelihood : Float32) (power : List Float32) :
    Profile :=
  if r.isNoise likelihood then
    { p with power := List.zipWith (blend r.vadSmoothing) p.power power }
  else p

end ProfileRules

end Denoise
